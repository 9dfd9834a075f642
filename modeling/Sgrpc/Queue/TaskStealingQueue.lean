import Mathlib.Algebra.Group.Nat.Defs
import Mathlib.Logic.Function.Basic
import Mathlib.Tactic.Common

/-!
# The task-stealing queue, one step at a time

`OptimisiticLockingQueue` is one sub-queue, a `std::deque` (front first) under a mutex that
`try_push` and `try_pop` only try to lock; `AtomicTaskStealingQueue` spreads the thunks over
`n` of them, with two round-robin indices and the counter and flag of the shutdown handshake.

The member functions of `AtomicTaskStealingQueue` are written as step functions on a program
counter: each atomic load, store or fetch and each mutex-protected body is one step, and what
the mutex and the allocator answer is an argument of the step. The source is generic in the
thunks and so is this file. A step also yields the `Event`s it is the witness of, for the
history of a run.

The indices `push_index_` and `pop_index_`, the counter `in_push_` and the sums of an index and a
loop variable are 32-bit and wrap.
-/

namespace Sgrpc

/-- The number of values of a 32-bit `unsigned`. -/
def unsignedSize : ℕ := 2 ^ 32

/-! ### One sub-queue -/

namespace OptimisiticLockingQueue

variable {α : Type*}

/-- What the environment answers to one `try_push`: the lock is taken by someone else, it is
free and the deque has (or gets) room, or growing the deque throws `std::bad_alloc`. -/
inductive PushAnswer where
  | busy
  | free
  | badAlloc
  deriving DecidableEq, Repr

/-- `try_push`: the returned boolean, the deque and the argument afterwards (`none` once it has
been moved from); `none` when `emplace_back` throws, which leaves deque and argument alone. -/
def tryPush (queue : List α) (f : α) : PushAnswer → Option (Bool × List α × Option α)
  | .busy => some (false, queue, some f)
  | .free => some (true, queue ++ [f], none)
  | .badAlloc => none

/-- `try_pop`: the returned boolean, the deque and the output argument afterwards. The argument
`locked` says whether `std::try_to_lock` got the lock. -/
def tryPop (queue : List α) (x : Option α) (locked : Bool) : Bool × List α × Option α :=
  match locked, queue with
  | true, front :: rest => (true, rest, some front)
  | _, _ => (false, queue, x)

/-- `eject`: the swapped-out thunks and the deque afterwards. -/
def eject (queue : List α) : List α × List α := (queue, [])

/-- A `try_pop` that succeeds hands out the front of the deque. -/
theorem tryPop_of_true {queue queue' : List α} {x x' : Option α} {locked : Bool}
    (h : tryPop queue x locked = (true, queue', x')) : ∃ f, queue = f :: queue' ∧ x' = some f := by
  cases locked <;> cases queue <;> simp_all [tryPop]

end OptimisiticLockingQueue

/-! ### The sharded queue -/

/-- The members of `AtomicTaskStealingQueue` with `n` sub-queues (`n_queues_`). Only the
sub-queues below `n` are ever used. -/
structure AtomicTaskStealingQueue (α : Type*) (n : ℕ) where
  queues : ℕ → List α
  pushIndex : ℕ
  popIndex : ℕ
  inPush : ℕ
  isDone : Bool

/-- What a step did that the history of a run records. -/
inductive QueueEvent (α : Type*) where
  /-- `push` of the thunk read `is_done_`. -/
  | tested (f : α) (isDone : Bool)
  /-- The thunk was stored at the end of sub-queue `j`. -/
  | stored (j : ℕ) (f : α)
  /-- A `try_pop` took the thunk from the front of sub-queue `j`. -/
  | popped (j : ℕ) (f : α)
  /-- An `eject` took all these thunks from sub-queue `j`. -/
  | ejected (j : ℕ) (fs : List α)
  deriving DecidableEq, Repr

/-- Program counter of `push`. The `Option` after the store is the caller's argument: `none`
once it has been moved from. -/
inductive PushPc (α : Type*) where
  /-- Not called yet. -/
  | idle
  /-- `in_push_` has been incremented; `is_done_` is read next. -/
  | counted (thunk : α)
  /-- At the head of the outer loop: `push_index_.fetch_add` is next. -/
  | next (thunk : α)
  /-- In the inner loop at `i`. -/
  | probe (thunk : α) (offset i : ℕ)
  /-- `in_push_.fetch_sub` is next. -/
  | leaving (isDone : Bool) (thunk : Option α)
  | returned (accepted : Bool) (thunk : Option α)
  /-- `std::bad_alloc` left the function. -/
  | threw (thunk : α)
  deriving DecidableEq, Repr

/-- Program counter of `try_pop`, with the output argument. -/
inductive PopPc (α : Type*) where
  /-- Not called yet. -/
  | idle
  /-- In the loop at `i`. -/
  | probe (thunk : Option α) (offset i : ℕ)
  | returned (popped : Bool) (thunk : Option α)
  deriving DecidableEq, Repr

/-- Program counter of `stop_and_eject`, with the local `thunks`. -/
inductive EjectPc (α : Type*) where
  /-- Not called yet. -/
  | idle
  /-- In the `for` loop at `i`; at `i = n` the loop is over and `in_push_` is read next. -/
  | sweep (i : ℕ) (thunks : List α)
  | returned (thunks : List α)
  deriving DecidableEq, Repr

namespace AtomicTaskStealingQueue

open OptimisiticLockingQueue

variable {α : Type*} {n : ℕ}

/-- The constructor: `n` empty sub-queues. -/
def empty : AtomicTaskStealingQueue α n where
  queues _ := []
  pushIndex := 0
  popIndex := 0
  inPush := 0
  isDone := false

/-- `(offset + i) % n_queues_`, the sum being computed in 32 bits. -/
def probeIndex (n offset i : ℕ) : ℕ := (offset + i) % unsignedSize % n

/-- `fetch_add(1)` on a 32-bit index or counter. -/
def bump (index : ℕ) : ℕ := (index + 1) % unsignedSize

/-- `fetch_sub(1)` on a 32-bit counter. -/
def unbump (counter : ℕ) : ℕ := if counter = 0 then unsignedSize - 1 else counter - 1

/-- Replace sub-queue `j`. -/
def setQueue (q : AtomicTaskStealingQueue α n) (j : ℕ) (l : List α) :
    AtomicTaskStealingQueue α n :=
  { q with queues := Function.update q.queues j l }

/-- The call of `push`: `in_push_.fetch_add(1)`. -/
def pushCall (q : AtomicTaskStealingQueue α n) (thunk : α) :
    AtomicTaskStealingQueue α n × PushPc α :=
  ({ q with inPush := bump q.inPush }, .counted thunk)

/-- One step of `push`. -/
def pushStep (q : AtomicTaskStealingQueue α n) (answer : PushAnswer) :
    PushPc α → Option (AtomicTaskStealingQueue α n × PushPc α × List (QueueEvent α))
  | .counted thunk =>
      some (q, if q.isDone then .leaving true (some thunk) else .next thunk,
        [.tested thunk q.isDone])
  | .next thunk => some ({ q with pushIndex := bump q.pushIndex }, .probe thunk q.pushIndex 0, [])
  | .probe thunk offset i =>
      if i = n then some (q, .next thunk, [])
      else
        let j := probeIndex n offset i
        match tryPush (q.queues j) thunk answer with
        | none => some (q, .threw thunk, []) -- `in_push_` keeps the increment
        | some (false, _, _) => some (q, .probe thunk offset (i + 1), [])
        | some (true, queue, moved) =>
            some (q.setQueue j queue, .leaving false moved, [.stored j thunk])
  | .leaving isDone thunk =>
      some ({ q with inPush := unbump q.inPush }, .returned (!isDone) thunk, [])
  | .idle | .returned _ _ | .threw _ => none

/-- The call of `try_pop`: `pop_index_.fetch_add(1)`. -/
def popCall (q : AtomicTaskStealingQueue α n) (thunk : Option α) :
    AtomicTaskStealingQueue α n × PopPc α :=
  ({ q with popIndex := bump q.popIndex }, .probe thunk q.popIndex 0)

/-- One step of `try_pop`. -/
def popStep (q : AtomicTaskStealingQueue α n) (locked : Bool) :
    PopPc α → Option (AtomicTaskStealingQueue α n × PopPc α × List (QueueEvent α))
  | .probe thunk offset i =>
      if i = n then some (q, .returned false thunk, [])
      else
        let j := probeIndex n offset i
        match tryPop (q.queues j) thunk locked with
        | (false, _, _) => some (q, .probe thunk offset (i + 1), [])
        | (true, queue, out) => some (q.setQueue j queue, .returned true out,
            out.toList.map (.popped j))
  | .idle | .returned _ _ => none

/-- The call of `stop_and_eject`: `signal_done()`. -/
def ejectCall (q : AtomicTaskStealingQueue α n) : AtomicTaskStealingQueue α n × EjectPc α :=
  ({ q with isDone := true }, .sweep 0 [])

/-- One step of `stop_and_eject`, whose own allocations do not fail here. In a context such an
exception terminates the program, which `State.Fatal` models. -/
def ejectStep (q : AtomicTaskStealingQueue α n) :
    EjectPc α → Option (AtomicTaskStealingQueue α n × EjectPc α × List (QueueEvent α))
  | .sweep i thunks =>
      if i = n then
        if q.inPush > 0 then some (q, .sweep 0 thunks, []) else some (q, .returned thunks, [])
      else
        let (queueThunks, rest) := eject (q.queues i)
        some (q.setQueue i rest, .sweep (i + 1) (thunks ++ queueThunks), [.ejected i queueThunks])
  | .idle | .returned _ => none

/-! ### What one step can do -/

@[simp] theorem queues_setQueue (q : AtomicTaskStealingQueue α n) (j : ℕ) (l : List α) :
    (q.setQueue j l).queues = Function.update q.queues j l := rfl

@[simp] theorem inPush_setQueue (q : AtomicTaskStealingQueue α n) (j : ℕ) (l : List α) :
    (q.setQueue j l).inPush = q.inPush := rfl

@[simp] theorem isDone_setQueue (q : AtomicTaskStealingQueue α n) (j : ℕ) (l : List α) :
    (q.setQueue j l).isDone = q.isDone := rfl

/-- The steps of `push`, by what they do. -/
inductive PushStep (q : AtomicTaskStealingQueue α n) :
    PushPc α → AtomicTaskStealingQueue α n → PushPc α → List (QueueEvent α) → Prop
  | refuse {f} : q.isDone = true →
      PushStep q (.counted f) q (.leaving true (some f)) [.tested f true]
  | accept {f} : q.isDone = false → PushStep q (.counted f) q (.next f) [.tested f false]
  | fetch {f} :
      PushStep q (.next f) { q with pushIndex := bump q.pushIndex } (.probe f q.pushIndex 0) []
  | wrap {f o} : PushStep q (.probe f o n) q (.next f) []
  | busy {f o i} : i ≠ n → PushStep q (.probe f o i) q (.probe f o (i + 1)) []
  | store {f o i j} : i ≠ n → j = probeIndex n o i →
      PushStep q (.probe f o i) (q.setQueue j (q.queues j ++ [f])) (.leaving false none)
        [.stored j f]
  | throw {f o i} : i ≠ n → PushStep q (.probe f o i) q (.threw f) []
  | leave {d f} :
      PushStep q (.leaving d f) { q with inPush := unbump q.inPush } (.returned (!d) f) []

theorem pushStep_spec {q q' : AtomicTaskStealingQueue α n} {answer : PushAnswer}
    {pc pc' : PushPc α} {ev : List (QueueEvent α)}
    (h : q.pushStep answer pc = some (q', pc', ev)) : PushStep q pc q' pc' ev := by
  cases pc with
  | counted f =>
    cases hd : q.isDone with
    | false =>
      simp only [pushStep, hd, Bool.false_eq_true, if_false] at h
      cases h
      exact .accept hd
    | true =>
      simp only [pushStep, hd, if_true] at h
      cases h
      exact .refuse hd
  | next f =>
    simp only [pushStep] at h
    cases h
    exact .fetch
  | probe f o i =>
    by_cases hi : i = n
    · subst hi
      simp only [pushStep, if_true] at h
      cases h
      exact .wrap
    · cases answer with
      | busy =>
        simp only [pushStep, hi, if_false, tryPush] at h
        cases h
        exact .busy hi
      | free =>
        simp only [pushStep, hi, if_false, tryPush] at h
        cases h
        exact .store hi rfl
      | badAlloc =>
        simp only [pushStep, hi, if_false, tryPush] at h
        cases h
        exact .throw hi
  | leaving d f =>
    simp only [pushStep] at h
    cases h
    exact .leave
  | idle | returned | threw => simp [pushStep] at h

/-- The steps of `try_pop`, by what they do. -/
inductive PopStep (q : AtomicTaskStealingQueue α n) :
    PopPc α → AtomicTaskStealingQueue α n → PopPc α → List (QueueEvent α) → Prop
  | giveUp {x o} : PopStep q (.probe x o n) q (.returned false x) []
  | skip {x o i} : i ≠ n → PopStep q (.probe x o i) q (.probe x o (i + 1)) []
  | take {x o i j f rest} : i ≠ n → j = probeIndex n o i → q.queues j = f :: rest →
      PopStep q (.probe x o i) (q.setQueue j rest) (.returned true (some f)) [.popped j f]

theorem popStep_spec {q q' : AtomicTaskStealingQueue α n} {locked : Bool} {pc pc' : PopPc α}
    {ev : List (QueueEvent α)} (h : q.popStep locked pc = some (q', pc', ev)) :
    PopStep q pc q' pc' ev := by
  cases pc with
  | probe x o i =>
    by_cases hi : i = n
    · subst hi
      simp only [popStep, if_true] at h
      cases h
      exact .giveUp
    · rcases ht : tryPop (q.queues (probeIndex n o i)) x locked with ⟨b, queue, out⟩
      simp only [popStep, hi, if_false, ht] at h
      cases b with
      | false =>
        cases h
        exact .skip hi
      | true =>
        obtain ⟨f, hq, rfl⟩ := tryPop_of_true ht
        cases h
        exact .take hi rfl hq
  | idle | returned => simp [popStep] at h

/-- The steps of `stop_and_eject`, by what they do. -/
inductive EjectStep (q : AtomicTaskStealingQueue α n) :
    EjectPc α → AtomicTaskStealingQueue α n → EjectPc α → List (QueueEvent α) → Prop
  | again {acc} : 0 < q.inPush → EjectStep q (.sweep n acc) q (.sweep 0 acc) []
  | finish {acc} : q.inPush = 0 → EjectStep q (.sweep n acc) q (.returned acc) []
  | swap {i acc} : i ≠ n →
      EjectStep q (.sweep i acc) (q.setQueue i []) (.sweep (i + 1) (acc ++ q.queues i))
        [.ejected i (q.queues i)]

theorem ejectStep_spec {q q' : AtomicTaskStealingQueue α n} {pc pc' : EjectPc α}
    {ev : List (QueueEvent α)} (h : q.ejectStep pc = some (q', pc', ev)) :
    EjectStep q pc q' pc' ev := by
  cases pc with
  | sweep i acc =>
    by_cases hi : i = n
    · subst hi
      by_cases hp : 0 < q.inPush
      · simp only [ejectStep, hp, if_true] at h
        cases h
        exact .again hp
      · simp only [ejectStep, hp, if_true, if_false] at h
        cases h
        exact .finish (Nat.eq_zero_of_not_pos hp)
    · simp only [ejectStep, hi, if_false, eject] at h
      cases h
      exact .swap hi
  | idle | returned => simp [ejectStep] at h

end AtomicTaskStealingQueue

end Sgrpc
