import Sgrpc.Interleaving.System
import Sgrpc.Queue.TaskStealingQueue
import Sgrpc.RoundRobin.Slots

/-!
# One call of the task-stealing queue at a time

`push` and `tryPop` run the step functions of a call to its end while nobody else calls: every
`std::try_to_lock` gets the lock, and growing a deque succeeds. The sub-queue at which a call
starts is the slot of its counter value, so what a run of such calls does is a question of which
slots a 32-bit counter names.

* A `try_pop` finds work whenever there is any exactly when its probes do not cross the end of
  the counter, or the number of sub-queues divides `2 ^ 32` (`findsWork_iff`).
* As long as no `try_pop` meets an empty queue, the two counters deal out and collect the thunks
  in the same order, whatever that order is: the queue is a plain FIFO (`refines_fifo`).
* Every sub-queue is the first to be probed by one of `2 * n - 1` consecutive `try_pop`s, so no
  thunk waits forever (`taken_within`).
-/

namespace Sgrpc

open Interleaving RoundRobin

namespace AtomicTaskStealingQueue

variable {α : Type*} {n : ℕ} {q : AtomicTaskStealingQueue α n}

/-! ### The calls -/

/-- One step of a `push` that meets no contention. -/
def pushAlone (c : AtomicTaskStealingQueue α n × PushPc α) :
    Option (AtomicTaskStealingQueue α n × PushPc α) :=
  (c.1.pushStep .free c.2).map fun r => (r.1, r.2.1)

/-- One step of a `try_pop` that meets no contention. -/
def popAlone (c : AtomicTaskStealingQueue α n × PopPc α) :
    Option (AtomicTaskStealingQueue α n × PopPc α) :=
  (c.1.popStep true c.2).map fun r => (r.1, r.2.1)

/-- `push`, with nobody else around: the queue afterwards, and where the call has ended. -/
def push (q : AtomicTaskStealingQueue α n) (thunk : α) : AtomicTaskStealingQueue α n × PushPc α :=
  runFor pushAlone 4 (q.pushCall thunk)

/-- `try_pop`, with nobody else around. -/
def tryPop (q : AtomicTaskStealingQueue α n) (thunk : Option α) :
    AtomicTaskStealingQueue α n × PopPc α :=
  runFor popAlone (n + 1) (q.popCall thunk)

theorem probeIndex_eq_slot (offset i : ℕ) :
    probeIndex n offset i = slot unsignedSize n (offset + i) := rfl

/-- A `push` on an open queue stores its thunk in the first sub-queue it tries. -/
theorem push_of_open (hn : 0 < n) (hopen : q.isDone = false) (f : α) :
    q.push f = ({ q.setQueue (probeIndex n q.pushIndex 0)
      (q.queues (probeIndex n q.pushIndex 0) ++ [f]) with
        pushIndex := bump q.pushIndex
        inPush := unbump (bump q.inPush) }, .returned true none) := by
  simp [push, runFor, pushAlone, pushCall, pushStep, hopen, hn.ne, setQueue,
    OptimisiticLockingQueue.tryPush]

/-- A `push` on a queue that is done gives its thunk back. -/
theorem push_of_done (hdone : q.isDone = true) (f : α) :
    q.push f = ({ q with inPush := unbump (bump q.inPush) }, .returned false (some f)) := by
  obtain ⟨queues, pushIndex, popIndex, inPush, isDone⟩ := q
  obtain rfl : isDone = true := hdone
  simp [push, runFor, pushAlone, pushCall, pushStep]

/-- The end of a `try_pop` that is at `i`: no sub-queue that is left has a thunk, or it takes the
front of the first one that has. -/
inductive PopEnd (q : AtomicTaskStealingQueue α n) (x : Option α) (o i : ℕ) :
    AtomicTaskStealingQueue α n × PopPc α → Prop
  | missed : (∀ k, i ≤ k → k < n → q.queues (probeIndex n o k) = []) →
      PopEnd q x o i (q, .returned false x)
  | took {k f rest} : i ≤ k → k < n → (∀ k', i ≤ k' → k' < k → q.queues (probeIndex n o k') = []) →
      q.queues (probeIndex n o k) = f :: rest →
      PopEnd q x o i (q.setQueue (probeIndex n o k) rest, .returned true (some f))

theorem popEnd_succ {x : Option α} {o i : ℕ} {c : AtomicTaskStealingQueue α n × PopPc α}
    (hempty : q.queues (probeIndex n o i) = []) (h : PopEnd q x o (i + 1) c) :
    PopEnd q x o i c := by
  have hfrom : ∀ {k}, i ≤ k → k = i ∨ i + 1 ≤ k := fun hk => by omega
  cases h with
  | missed hall =>
    refine .missed fun k hk hkn => ?_
    rcases hfrom hk with rfl | hk
    · exact hempty
    · exact hall k hk hkn
  | took hik hk hbefore hq =>
    refine .took (by omega) hk (fun k' hk' hlt => ?_) hq
    rcases hfrom hk' with rfl | hk'
    · exact hempty
    · exact hbefore k' hk' hlt

/-- The loop of `try_pop` ends after at most one step for each sub-queue left, and the return. -/
theorem popEnd_runFor (x : Option α) (o : ℕ) {left : ℕ} : ∀ {i : ℕ}, i + left = n →
    PopEnd q x o i (runFor popAlone (left + 1) (q, .probe x o i)) := by
  induction left with
  | zero =>
    intro i hi
    have hstep : popAlone (q, .probe x o i) = some (q, .returned false x) := by
      simp [popAlone, popStep, show i = n by omega]
    rw [runFor_of_step hstep]
    exact .missed fun k _ _ => by omega
  | succ left ih =>
    intro i hi
    have hin : i ≠ n := by omega
    cases hq : q.queues (probeIndex n o i) with
    | nil =>
      have hstep : popAlone (q, .probe x o i) = some (q, .probe x o (i + 1)) := by
        simp [popAlone, popStep, hin, hq, OptimisiticLockingQueue.tryPop]
      rw [runFor_of_step hstep]
      exact popEnd_succ hq (ih (by omega))
    | cons f rest =>
      have hstep : popAlone (q, .probe x o i) =
          some (q.setQueue (probeIndex n o i) rest, .returned true (some f)) := by
        simp [popAlone, popStep, hin, hq, OptimisiticLockingQueue.tryPop]
      rw [runFor_of_step hstep, runFor_of_end rfl]
      exact .took le_rfl (by omega) (fun k' hk' hlt => by omega) hq

/-- What a `try_pop` does. -/
theorem tryPop_spec (q : AtomicTaskStealingQueue α n) (x : Option α) :
    PopEnd { q with popIndex := bump q.popIndex } x q.popIndex 0 (q.tryPop x) :=
  popEnd_runFor x q.popIndex (Nat.zero_add n)

/-! ### Finding work -/

/-- What a non-blocking pop is for: its probes reach every sub-queue, it returns `true` exactly
when there is a thunk, namely the front of the first sub-queue in its probe order that is not
empty, and otherwise changes neither the sub-queues nor the argument. -/
structure FindsWork (q : AtomicTaskStealingQueue α n) (x : Option α) : Prop where
  covers : ∀ j < n, ∃ i < n, probeIndex n q.popIndex i = j
  returns : ∃ popped out, (q.tryPop x).2 = .returned popped out ∧
    (popped = true ↔ ∃ j < n, q.queues j ≠ [])
  popped : ∀ out, (q.tryPop x).2 = .returned true out → ∃ i < n, ∃ f rest,
    (∀ k < i, q.queues (probeIndex n q.popIndex k) = []) ∧
    q.queues (probeIndex n q.popIndex i) = f :: rest ∧ out = some f ∧
    (q.tryPop x).1.queues = Function.update q.queues (probeIndex n q.popIndex i) rest
  missed : ∀ out, (q.tryPop x).2 = .returned false out →
    out = x ∧ (q.tryPop x).1.queues = q.queues

/-- A `try_pop` whose probes reach every sub-queue finds work. -/
theorem findsWork_of_covers (x : Option α)
    (hcovers : ∀ j < n, ∃ i < n, probeIndex n q.popIndex i = j) : q.FindsWork x := by
  generalize hc : q.tryPop x = c
  have hspec := hc ▸ tryPop_spec q x
  cases hspec with
  | missed hall =>
    refine ⟨hcovers, ⟨false, x, by rw [hc], ?_⟩, fun out h => ?_, fun out h => ?_⟩
    · refine iff_of_false Bool.false_ne_true ?_
      rintro ⟨j, hj, hne⟩
      obtain ⟨i, hi, rfl⟩ := hcovers j hj
      exact hne (hall i (Nat.zero_le i) hi)
    · rw [hc] at h
      cases h
    · rw [hc] at h ⊢
      cases h
      exact ⟨rfl, rfl⟩
  | @took i f rest _ hi hbefore hq =>
    refine ⟨hcovers, ⟨true, some f, by rw [hc], ?_⟩, fun out h => ?_, fun out h => ?_⟩
    · refine iff_of_true rfl ⟨probeIndex n q.popIndex i, slot_lt (by omega), ?_⟩
      exact fun hnil => List.cons_ne_nil f rest (hq.symm.trans hnil)
    · rw [hc] at h ⊢
      cases h
      exact ⟨i, hi, f, rest, fun k hk => hbefore k (Nat.zero_le k) hk, hq, rfl, rfl⟩
    · rw [hc] at h
      cases h

/-- **A `try_pop` finds work if there is any** exactly when its probes do not cross the end of the
32-bit counter, or the number of sub-queues divides `2 ^ 32`. -/
theorem findsWork_iff (hn : n < unsignedSize) (hq : q.popIndex < unsignedSize) (x : Option α) :
    q.FindsWork x ↔ q.popIndex + n ≤ unsignedSize ∨ n ∣ unsignedSize :=
  ⟨fun h => (covers_iff hn.le hq).mp h.covers,
    fun h => findsWork_of_covers x ((covers_iff hn.le hq).mpr h)⟩

/-- Three sub-queues before the last value of `pop_index_`, with one thunk in the last of them. -/
def atWrap : AtomicTaskStealingQueue ℕ 3 :=
  { (empty : AtomicTaskStealingQueue ℕ 3) with
    queues := Function.update (fun _ => []) 2 [7]
    popIndex := unsignedSize - 1 }

/-- The probes of a `try_pop` on that queue are `0`, `0` and `1`. -/
theorem atWrap_misses : atWrap.popIndex < unsignedSize ∧ atWrap.queues 2 = [7] ∧
    (atWrap.tryPop none).2 = .returned false none ∧ ¬ atWrap.FindsWork none := by
  have hreturns : (atWrap.tryPop none).2 = .returned false none := by decide
  refine ⟨by decide, by decide, hreturns, fun h => ?_⟩
  obtain ⟨popped, out, heq, hiff⟩ := h.returns
  rw [hreturns] at heq
  cases heq
  exact Bool.false_ne_true (hiff.mpr ⟨2, by decide, by decide⟩)

/-- One value earlier the same `try_pop` finds the thunk. -/
theorem findsWork_before_wrap : (3 < unsignedSize ∧ unsignedSize - 3 < unsignedSize) ∧
    FindsWork (n := 3) { atWrap with popIndex := unsignedSize - 3 } none :=
  ⟨by decide, (findsWork_iff (by decide) (by decide) none).mpr (.inl (by decide))⟩

/-- Otherwise one sub-queue is out of reach: a `try_pop` returns `false` although it is full. -/
theorem exists_unreached (hn : n < unsignedSize) (hq : q.popIndex < unsignedSize)
    (h : ¬ (q.popIndex + n ≤ unsignedSize ∨ n ∣ unsignedSize)) :
    ∃ j < n, (∀ k < n, k ≠ j → q.queues k = []) → ∀ x, (q.tryPop x).2 = .returned false x := by
  have hmiss := mt (covers_iff hn.le hq).mp h
  push Not at hmiss
  obtain ⟨j, hj, hne⟩ := hmiss
  refine ⟨j, hj, fun hempty x => ?_⟩
  generalize hc : q.tryPop x = c
  have hspec := hc ▸ tryPop_spec q x
  cases hspec with
  | missed => rfl
  | @took i f rest _ hi _ hfront =>
    have hnil := hempty (probeIndex n q.popIndex i) (slot_lt (by omega)) (hne i hi)
    exact absurd (hfront.symm.trans hnil) (List.cons_ne_nil f rest)

end AtomicTaskStealingQueue

/-! ### Runs of calls -/

/-- A call of a run in which one call follows the other. -/
inductive QueueOp (α : Type*) where
  | push (thunk : α)
  | tryPop (thunk : Option α)

namespace QueueOp

variable {α : Type*}

/-- The thunks that are pushed, in this order. -/
def pushed : List (QueueOp α) → List α
  | [] => []
  | .push f :: ops => f :: pushed ops
  | .tryPop _ :: ops => pushed ops

/-- The number of `try_pop` calls. -/
def tryPops : List (QueueOp α) → ℕ
  | [] => 0
  | .push _ :: ops => tryPops ops
  | .tryPop _ :: ops => tryPops ops + 1

theorem tryPops_append_cons (ops₁ ops₂ : List (QueueOp α)) (x : Option α) :
    tryPops (ops₁ ++ .tryPop x :: ops₂) = tryPops ops₁ + 1 + tryPops ops₂ := by
  induction ops₁ with
  | nil => simp only [List.nil_append, tryPops, Nat.zero_add, Nat.add_comm]
  | cons op ops₁ ih =>
    cases op with
    | push f => exact ih
    | tryPop y =>
      simp only [List.cons_append, tryPops, ih]
      omega

end QueueOp

namespace AtomicTaskStealingQueue

open QueueOp

variable {α : Type*} {n : ℕ} {q : AtomicTaskStealingQueue α n}

/-- The queue after the calls. -/
def after (q : AtomicTaskStealingQueue α n) : List (QueueOp α) → AtomicTaskStealingQueue α n
  | [] => q
  | .push f :: ops => (q.push f).1.after ops
  | .tryPop x :: ops => (q.tryPop x).1.after ops

theorem after_append (ops₁ ops₂ : List (QueueOp α)) :
    ∀ q : AtomicTaskStealingQueue α n, q.after (ops₁ ++ ops₂) = (q.after ops₁).after ops₂ := by
  induction ops₁ with
  | nil => exact fun _ => rfl
  | cons op ops₁ ih =>
    intro q
    cases op with
    | push f => exact ih _
    | tryPop x => exact ih _

/-- How the `push` calls end. -/
def pushReturns (q : AtomicTaskStealingQueue α n) : List (QueueOp α) → List (PushPc α)
  | [] => []
  | .push f :: ops => (q.push f).2 :: (q.push f).1.pushReturns ops
  | .tryPop x :: ops => (q.tryPop x).1.pushReturns ops

/-- How the `try_pop` calls end. -/
def popReturns (q : AtomicTaskStealingQueue α n) : List (QueueOp α) → List (PopPc α)
  | [] => []
  | .push f :: ops => (q.push f).1.popReturns ops
  | .tryPop x :: ops => (q.tryPop x).2 :: (q.tryPop x).1.popReturns ops

/-- No `try_pop` is called while the queue holds no thunk. -/
def NeverPopsEmpty (q : AtomicTaskStealingQueue α n) : List (QueueOp α) → Prop
  | [] => True
  | .push f :: ops => (q.push f).1.NeverPopsEmpty ops
  | .tryPop x :: ops => (∃ j < n, q.queues j ≠ []) ∧ (q.tryPop x).1.NeverPopsEmpty ops

/-! ### A plain FIFO queue -/

/-- The queue holds the thunks `l`, which are in the sub-queues as the counter of the pops is
going to collect them, and the counter of the pushes goes on where they end. -/
structure Represents (q : AtomicTaskStealingQueue α n) (l : List α) (pops : ℕ) : Prop where
  isOpen : q.isDone = false
  popIndex : q.popIndex = pops % unsignedSize
  pushIndex : q.pushIndex = (pops + l.length) % unsignedSize
  queues : q.queues = deal (slot unsignedSize n) pops l

theorem represents_empty : (empty : AtomicTaskStealingQueue α n).Represents [] 0 :=
  ⟨rfl, rfl, rfl, rfl⟩

/-- A `push` appends to the list. -/
theorem Represents.push (hn : 0 < n) {l : List α} {pops : ℕ} (h : q.Represents l pops) (f : α) :
    (q.push f).2 = .returned true none ∧ (q.push f).1.Represents (l ++ [f]) pops := by
  have hfirst : probeIndex n q.pushIndex 0 = slot unsignedSize n (pops + l.length) := by
    rw [probeIndex_eq_slot, h.pushIndex, slot_mod_add, Nat.add_zero]
  rw [push_of_open hn h.isOpen, hfirst]
  refine ⟨rfl, h.isOpen, h.popIndex, ?_, ?_⟩
  · show bump q.pushIndex = _
    rw [bump, h.pushIndex, Nat.mod_add_mod, List.length_append, List.length_singleton,
      Nat.add_assoc]
  · show Function.update q.queues _ _ = _
    rw [h.queues, deal_append_singleton]

/-- A `try_pop` takes the head of the list, which lies at the front of the first sub-queue it
probes. -/
theorem Represents.tryPop (hn : 0 < n) {f : α} {l : List α} {pops : ℕ}
    (h : q.Represents (f :: l) pops) (x : Option α) :
    (q.tryPop x).2 = .returned true (some f) ∧ (q.tryPop x).1.Represents l (pops + 1) := by
  have hfirst : probeIndex n q.popIndex 0 = slot unsignedSize n pops := by
    rw [probeIndex_eq_slot, h.popIndex, slot_mod_add, Nat.add_zero]
  have hfront : q.queues (probeIndex n q.popIndex 0) =
      f :: deal (slot unsignedSize n) (pops + 1) l (slot unsignedSize n pops) := by
    rw [hfirst, h.queues, deal_cons, Function.update_self]
  generalize hc : q.tryPop x = c
  have hspec := hc ▸ tryPop_spec q x
  cases hspec with
  | missed hall =>
    exact absurd ((hall 0 le_rfl hn).symm.trans hfront) (List.cons_ne_nil f _).symm
  | @took i f' rest _ hi hbefore hq =>
    obtain rfl : i = 0 := Nat.eq_zero_of_not_pos fun hpos =>
      absurd ((hbefore 0 le_rfl hpos).symm.trans hfront) (List.cons_ne_nil f _).symm
    obtain ⟨rfl, rfl⟩ := List.cons.inj (hq.symm.trans hfront)
    refine ⟨rfl, h.isOpen, ?_, ?_, ?_⟩
    · show bump q.popIndex = _
      rw [bump, h.popIndex, Nat.mod_add_mod]
    · show q.pushIndex = _
      rw [h.pushIndex, List.length_cons, Nat.add_assoc, Nat.add_comm 1]
    · show Function.update q.queues _ _ = _
      rw [hfirst, h.queues, deal_cons, Function.update_idem, Function.update_eq_self]

/-- A queue that represents no thunk is empty. -/
theorem Represents.queues_nil {pops : ℕ} (h : q.Represents [] pops) (j : ℕ) : q.queues j = [] := by
  rw [h.queues, deal_nil]

/-- The calls return what the plain queue returns. -/
theorem Represents.returns (hn : 0 < n) {ops : List (QueueOp α)} :
    ∀ {q : AtomicTaskStealingQueue α n} {l : List α} {pops : ℕ}, q.Represents l pops →
      q.NeverPopsEmpty ops →
      q.pushReturns ops = (pushed ops).map (fun _ => .returned true none) ∧
      q.popReturns ops =
        ((l ++ pushed ops).take (tryPops ops)).map (fun f => .returned true (some f)) ∧
      tryPops ops ≤ (l ++ pushed ops).length := by
  induction ops with
  | nil => exact fun _ _ => ⟨rfl, rfl, Nat.zero_le _⟩
  | cons op ops ih =>
    intro q l pops h hne
    cases op with
    | push f =>
      obtain ⟨hreturned, hpushed⟩ := h.push hn f
      obtain ⟨hpushes, hpops, hle⟩ := ih hpushed hne
      have hl : l ++ pushed (.push f :: ops) = l ++ [f] ++ pushed ops := by simp [pushed]
      rw [hl]
      refine ⟨?_, hpops, hle⟩
      simp only [pushReturns, pushed, hreturned, hpushes, List.map_cons]
    | tryPop x =>
      obtain ⟨⟨j, -, hj⟩, hrest⟩ := hne
      cases l with
      | nil => exact absurd (h.queues_nil j) hj
      | cons f l =>
        obtain ⟨hreturned, hpopped⟩ := h.tryPop hn x
        obtain ⟨hpushes, hpops, hle⟩ := ih hpopped hrest
        refine ⟨hpushes, ?_, Nat.succ_le_succ hle⟩
        simp only [popReturns, pushed, tryPops, hreturned, hpops, List.cons_append,
          List.take_succ_cons, List.map_cons]

/-- **The sharded queue refines a plain FIFO queue** in every sequential run in which no `try_pop`
meets an empty queue: every call returns `true`, and the thunks come out in the order in which
they were pushed. -/
theorem refines_fifo (hn : 0 < n) {ops : List (QueueOp α)}
    (hne : (empty : AtomicTaskStealingQueue α n).NeverPopsEmpty ops) :
    (empty : AtomicTaskStealingQueue α n).pushReturns ops =
        (pushed ops).map (fun _ => .returned true none) ∧
      (empty : AtomicTaskStealingQueue α n).popReturns ops =
        ((pushed ops).take (tryPops ops)).map (fun f => .returned true (some f)) ∧
      tryPops ops ≤ (pushed ops).length := by
  simpa only [List.nil_append] using represents_empty.returns hn hne

/-- Two pushes and two pops on three sub-queues. -/
theorem refines_fifo_two : (empty : AtomicTaskStealingQueue ℕ 3).popReturns
    [.push 4, .push 6, .tryPop none, .tryPop none] =
      [.returned true (some 4), .returned true (some 6)] := by
  have hne : (empty : AtomicTaskStealingQueue ℕ 3).NeverPopsEmpty
      [.push 4, .push 6, .tryPop none, .tryPop none] :=
    ⟨⟨0, by decide, by decide⟩, ⟨1, by decide, by decide⟩, trivial⟩
  exact (refines_fifo (by decide) hne).2.1

/-! ### No thunk waits forever -/

/-- A `push` touches no sub-queue but at its end, and not the counter of the pops. -/
theorem push_keeps (hn : 0 < n) (q : AtomicTaskStealingQueue α n) (f : α) (j : ℕ) :
    (q.push f).1.popIndex = q.popIndex ∧
      ∃ more, (q.push f).1.queues j = q.queues j ++ more := by
  cases hdone : q.isDone with
  | true =>
    rw [push_of_done hdone]
    exact ⟨rfl, [], (List.append_nil _).symm⟩
  | false =>
    rw [push_of_open hn hdone]
    refine ⟨rfl, ?_⟩
    show ∃ more, Function.update q.queues _ _ j = q.queues j ++ more
    rcases eq_or_ne j (probeIndex n q.pushIndex 0) with rfl | hj
    · exact ⟨[f], Function.update_self _ _ _⟩
    · exact ⟨[], by rw [Function.update_of_ne hj, List.append_nil]⟩

/-- The `try_pop` takes the thunk `f` from the front of sub-queue `j`. -/
def Takes (q : AtomicTaskStealingQueue α n) (x : Option α) (j : ℕ) (f : α) (rest : List α) : Prop :=
  q.queues j = f :: rest ∧ (q.tryPop x).2 = .returned true (some f) ∧
    (q.tryPop x).1.queues j = rest

/-- A `try_pop` takes the front of sub-queue `j`, or it began elsewhere and leaves `j` alone. -/
theorem tryPop_keeps (hn : 0 < n) (x : Option α) {j : ℕ} {f : α} {rest : List α}
    (hj : q.queues j = f :: rest) : (q.tryPop x).1.popIndex = bump q.popIndex ∧
      (q.Takes x j f rest ∨
        probeIndex n q.popIndex 0 ≠ j ∧ (q.tryPop x).1.queues j = f :: rest) := by
  have hfull : q.queues j ≠ [] := fun hnil => List.cons_ne_nil f rest (hj.symm.trans hnil)
  generalize hc : q.tryPop x = c
  have hspec := hc ▸ tryPop_spec q x
  cases hspec with
  | missed hall =>
    refine ⟨rfl, .inr ⟨fun heq => ?_, hj⟩⟩
    exact hfull (heq ▸ hall 0 le_rfl hn)
  | @took i f' rest' _ hi hbefore hq =>
    refine ⟨rfl, ?_⟩
    rcases eq_or_ne j (probeIndex n q.popIndex i) with rfl | hne
    · obtain ⟨rfl, rfl⟩ := List.cons.inj (hj.symm.trans hq)
      exact .inl ⟨hj, by rw [hc], by rw [hc]; exact Function.update_self _ _ _⟩
    · refine .inr ⟨fun heq => ?_, (Function.update_of_ne hne _ _).trans hj⟩
      rcases Nat.eq_zero_or_pos i with rfl | hpos
      · exact hne heq.symm
      · exact hfull (heq ▸ hbefore 0 le_rfl hpos)

/-- A sub-queue at which the `i`-th of the next `try_pop`s begins loses its front by then. -/
theorem takes_within (hn : 0 < n) {j : ℕ} {f : α} {ops : List (QueueOp α)} :
    ∀ {i : ℕ} {q : AtomicTaskStealingQueue α n} {rest : List α}, q.queues j = f :: rest →
      probeIndex n q.popIndex i = j → i < tryPops ops →
      ∃ ops₁ x ops₂ more, ops = ops₁ ++ .tryPop x :: ops₂ ∧ tryPops ops₁ ≤ i ∧
        (q.after ops₁).Takes x j f (rest ++ more) := by
  induction ops with
  | nil => exact fun _ _ hi => absurd hi (Nat.not_lt_zero _)
  | cons op ops ih =>
    intro i q rest hj hindex hi
    cases op with
    | push g =>
      obtain ⟨hpop, more, hmore⟩ := push_keeps hn q g j
      rw [hj, List.cons_append] at hmore
      obtain ⟨ops₁, x, ops₂, more', rfl, hle, htakes⟩ := ih hmore (hpop ▸ hindex) hi
      rw [List.append_assoc] at htakes
      exact ⟨.push g :: ops₁, x, ops₂, more ++ more', rfl, hle, htakes⟩
    | tryPop y =>
      obtain ⟨hpop, htakes | ⟨hne, hrest⟩⟩ := tryPop_keeps hn y hj
      · exact ⟨[], y, ops, [], rfl, Nat.zero_le i, by rwa [List.append_nil]⟩
      · cases i with
        | zero => exact absurd hindex hne
        | succ i =>
          have hnext : probeIndex n (q.tryPop y).1.popIndex i = j := by
            rw [hpop, bump, probeIndex_eq_slot, slot_mod_add, ← hindex, probeIndex_eq_slot,
              Nat.add_assoc, Nat.add_comm 1]
          obtain ⟨ops₁, x, ops₂, more, rfl, hle, htakes⟩ :=
            ih hrest hnext (Nat.lt_of_succ_lt_succ hi)
          exact ⟨.tryPop y :: ops₁, x, ops₂, more, rfl, Nat.succ_le_succ hle, htakes⟩

/-- **No thunk waits forever.** A thunk with `pre` in front of it in its sub-queue is returned by
one of the next `(pre.length + 1) * (2 * n - 1)` calls of `try_pop`, whatever is pushed in the
meantime and wherever the counter wraps. -/
theorem taken_within (hn : n < unsignedSize) {j : ℕ} (hj : j < n) {f : α} {pre : List α} :
    ∀ {q : AtomicTaskStealingQueue α n} {post : List α} {ops : List (QueueOp α)},
      q.popIndex < unsignedSize → q.queues j = pre ++ f :: post →
      (pre.length + 1) * (2 * n - 1) ≤ tryPops ops →
      ∃ ops₁ x ops₂ more, ops = ops₁ ++ .tryPop x :: ops₂ ∧
        tryPops ops₁ < (pre.length + 1) * (2 * n - 1) ∧
        (q.after ops₁).Takes x j f (post ++ more) := by
  have hpos : 0 < n := Nat.zero_lt_of_lt hj
  -- whichever thunk is at the front goes within one window
  have hwindow : ∀ {q : AtomicTaskStealingQueue α n} {g : α} {rest : List α}
      {ops : List (QueueOp α)}, q.popIndex < unsignedSize → q.queues j = g :: rest →
      2 * n - 1 ≤ tryPops ops → ∃ ops₁ x ops₂ more, ops = ops₁ ++ .tryPop x :: ops₂ ∧
        tryPops ops₁ < 2 * n - 1 ∧ (q.after ops₁).Takes x j g (rest ++ more) := by
    intro q g rest ops hq hqueue hops
    obtain ⟨i, hi, hslot⟩ := exists_slot_eq hn.le hq hj
    obtain ⟨ops₁, x, ops₂, more, hsplit, hle, htakes⟩ :=
      takes_within hpos hqueue hslot (hi.trans_le hops)
    exact ⟨ops₁, x, ops₂, more, hsplit, hle.trans_lt hi, htakes⟩
  generalize 2 * n - 1 = window at hwindow ⊢
  induction pre with
  | nil =>
    intro q post ops hq hqueue hops
    simp only [List.length_nil, Nat.zero_add, Nat.one_mul] at hops ⊢
    exact hwindow hq hqueue hops
  | cons g pre ih =>
    intro q post ops hq hqueue hops
    rw [List.length_cons, Nat.succ_mul] at hops ⊢
    obtain ⟨ops₁, x, ops₂, more, rfl, hlt, htakes⟩ :=
      hwindow hq hqueue ((Nat.le_add_left _ _).trans hops)
    rw [tryPops_append_cons] at hops
    have hpop : ((q.after ops₁).tryPop x).1.popIndex < unsignedSize := by
      rw [(tryPop_keeps hpos x htakes.1).1]
      exact Nat.mod_lt _ (by decide)
    have hrest : ((q.after ops₁).tryPop x).1.queues j = pre ++ f :: (post ++ more) := by
      rw [htakes.2.2]
      exact List.append_assoc pre (f :: post) more
    have hmany : (pre.length + 1) * window ≤ tryPops ops₂ := by omega
    obtain ⟨ops₃, y, ops₄, more', rfl, hlt', htakes'⟩ := ih hpop hrest hmany
    refine ⟨ops₁ ++ .tryPop x :: ops₃, y, ops₄, more ++ more', ?_, ?_, ?_⟩
    · rw [List.append_assoc, List.cons_append]
    · rw [tryPops_append_cons]
      omega
    · rw [after_append, ← List.append_assoc]
      exact htakes'

/-- Two thunks in the second of two sub-queues, at the last value of `pop_index_`. -/
def twoWaiting : AtomicTaskStealingQueue ℕ 2 :=
  { (empty : AtomicTaskStealingQueue ℕ 2) with
    queues := Function.update (fun _ => []) 1 [5, 9]
    popIndex := unsignedSize - 1 }

/-- The second of them is returned by one of six calls. -/
theorem taken_within_six : ∃ ops₁ x ops₂ more,
    List.replicate 6 (.tryPop none) = ops₁ ++ .tryPop x :: ops₂ ∧ tryPops ops₁ < 6 ∧
      (twoWaiting.after ops₁).Takes x 1 9 ([] ++ more) := by
  have hqueue : twoWaiting.queues 1 = [5] ++ 9 :: [] := rfl
  exact taken_within (by decide) (by decide) (by decide) hqueue (by decide)

end AtomicTaskStealingQueue

end Sgrpc
