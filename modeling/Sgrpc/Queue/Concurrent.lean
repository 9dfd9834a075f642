import Sgrpc.Interleaving.System
import Sgrpc.Queue.TaskStealingQueue

/-!
# Concurrent calls of the task-stealing queue

`queueSystem n` interleaves any number of calls of `push`, `try_pop` and `stop_and_eject` on one
queue with `n` sub-queues. Every call has an identity of its own, in any type `ι`; a thread that
calls several functions one after the other is several calls. The queue never looks into a thunk,
so a thunk is named by the `push` call that brings it: call `c` pushes the thunk `c`, and the
sub-queues hold such names.

The state keeps the history of the run: `trace` lists what the steps did to the sub-queues, from
which `entered`, `left` and `stores` are read off.
-/

namespace Sgrpc

open Interleaving
open OptimisiticLockingQueue (PushAnswer)
open AtomicTaskStealingQueue (PushStep PopStep EjectStep pushStep_spec popStep_spec ejectStep_spec)

variable {ι : Type*} {n : ℕ}

/-- The queue, the program counter of every call, and the history. -/
structure QueueState (ι : Type*) (n : ℕ) where
  queue : AtomicTaskStealingQueue ι n
  push : ι → PushPc ι
  pop : ι → PopPc ι
  eject : ι → EjectPc ι
  trace : List (QueueEvent ι)

/-- One step of a call, with what the locks and the allocator answer. The first step of a call
is the call itself. -/
inductive QueueAct (ι : Type*) where
  | push (c : ι) (answer : PushAnswer)
  | pop (p : ι) (locked : Bool)
  | eject (e : ι)
  deriving DecidableEq, Repr

/-! ### What the history says -/

/-- The thunks stored in the sub-queues, in this order. -/
def stores (trace : List (QueueEvent ι)) : List ι :=
  trace.filterMap fun
    | .stored _ f => some f
    | _ => none

/-- The thunks stored in sub-queue `j`, in this order. -/
def entered (j : ℕ) (trace : List (QueueEvent ι)) : List ι :=
  trace.filterMap fun
    | .stored k f => if k = j then some f else none
    | _ => none

/-- The thunks that left sub-queue `j`, in the order in which they did. -/
def left (j : ℕ) (trace : List (QueueEvent ι)) : List ι :=
  trace.flatMap fun
    | .popped k f => if k = j then [f] else []
    | .ejected k fs => if k = j then fs else []
    | _ => []

@[simp] theorem stores_append (t u : List (QueueEvent ι)) :
    stores (t ++ u) = stores t ++ stores u := List.filterMap_append

@[simp] theorem entered_append (j : ℕ) (t u : List (QueueEvent ι)) :
    entered j (t ++ u) = entered j t ++ entered j u := List.filterMap_append

@[simp] theorem left_append (j : ℕ) (t u : List (QueueEvent ι)) :
    left j (t ++ u) = left j t ++ left j u := List.flatMap_append

@[simp] theorem stores_stored (j : ℕ) (f : ι) : stores [.stored j f] = [f] := rfl
@[simp] theorem stores_popped (j : ℕ) (f : ι) : stores [.popped j f] = [] := rfl
@[simp] theorem stores_ejected (j : ℕ) (fs : List ι) : stores [.ejected j fs] = [] := rfl

@[simp] theorem entered_stored (k j : ℕ) (f : ι) :
    entered k [.stored j f] = if j = k then [f] else [] := by
  by_cases h : j = k <;> simp [entered, h]

@[simp] theorem entered_popped (k j : ℕ) (f : ι) : entered k [.popped j f] = [] := rfl
@[simp] theorem entered_ejected (k j : ℕ) (fs : List ι) : entered k [.ejected j fs] = [] := rfl
@[simp] theorem left_stored (k j : ℕ) (f : ι) : left k [.stored j f] = [] := rfl

@[simp] theorem left_popped (k j : ℕ) (f : ι) :
    left k [.popped j f] = if j = k then [f] else [] := by
  simp [left]

@[simp] theorem left_ejected (k j : ℕ) (fs : List ι) :
    left k [.ejected j fs] = if j = k then fs else [] := by
  simp [left]

/-- The events that neither enter nor leave a sub-queue. -/
def Silent (ev : List (QueueEvent ι)) : Prop :=
  stores ev = [] ∧ ∀ j, entered j ev = [] ∧ left j ev = []

theorem silent_nil : Silent ([] : List (QueueEvent ι)) := ⟨rfl, fun _ => ⟨rfl, rfl⟩⟩

theorem silent_tested (f : ι) (d : Bool) : Silent [QueueEvent.tested f d] :=
  ⟨rfl, fun _ => ⟨rfl, rfl⟩⟩

/-! ### The system -/

namespace QueueState

/-- A freshly constructed queue that nobody has called yet. -/
def initial : QueueState ι n where
  queue := .empty
  push _ := .idle
  pop _ := .idle
  eject _ := .idle
  trace := []

variable [DecidableEq ι]

/-- The state after a step of the `push` call `c`. -/
def afterPush (s : QueueState ι n) (c : ι) (q : AtomicTaskStealingQueue ι n) (pc : PushPc ι)
    (ev : List (QueueEvent ι)) : QueueState ι n :=
  { s with queue := q, push := Function.update s.push c pc, trace := s.trace ++ ev }

/-- The state after a step of the `try_pop` call `p`. -/
def afterPop (s : QueueState ι n) (p : ι) (q : AtomicTaskStealingQueue ι n) (pc : PopPc ι)
    (ev : List (QueueEvent ι)) : QueueState ι n :=
  { s with queue := q, pop := Function.update s.pop p pc, trace := s.trace ++ ev }

/-- The state after a step of the `stop_and_eject` call `e`. -/
def afterEject (s : QueueState ι n) (e : ι) (q : AtomicTaskStealingQueue ι n) (pc : EjectPc ι)
    (ev : List (QueueEvent ι)) : QueueState ι n :=
  { s with queue := q, eject := Function.update s.eject e pc, trace := s.trace ++ ev }

/-- One step of one call. -/
def step (s : QueueState ι n) : QueueAct ι → Option (QueueState ι n)
  | .push c answer =>
      match s.push c with
      | .idle => some (s.afterPush c (s.queue.pushCall c).1 (s.queue.pushCall c).2 [])
      | pc => (s.queue.pushStep answer pc).map fun r => s.afterPush c r.1 r.2.1 r.2.2
  | .pop p locked =>
      match s.pop p with
      | .idle => some (s.afterPop p (s.queue.popCall none).1 (s.queue.popCall none).2 [])
      | pc => (s.queue.popStep locked pc).map fun r => s.afterPop p r.1 r.2.1 r.2.2
  | .eject e =>
      match s.eject e with
      | .idle => some (s.afterEject e s.queue.ejectCall.1 s.queue.ejectCall.2 [])
      | pc => (s.queue.ejectStep pc).map fun r => s.afterEject e r.1 r.2.1 r.2.2

section Fields

variable (s : QueueState ι n) (c : ι) (q : AtomicTaskStealingQueue ι n) (ev : List (QueueEvent ι))

@[simp] theorem queue_afterPush (pc : PushPc ι) : (s.afterPush c q pc ev).queue = q := rfl
@[simp] theorem queue_afterPop (pc : PopPc ι) : (s.afterPop c q pc ev).queue = q := rfl
@[simp] theorem queue_afterEject (pc : EjectPc ι) : (s.afterEject c q pc ev).queue = q := rfl
@[simp] theorem push_afterPush (pc : PushPc ι) :
    (s.afterPush c q pc ev).push = Function.update s.push c pc := rfl
@[simp] theorem push_afterPop (pc : PopPc ι) : (s.afterPop c q pc ev).push = s.push := rfl
@[simp] theorem push_afterEject (pc : EjectPc ι) : (s.afterEject c q pc ev).push = s.push := rfl
@[simp] theorem pop_afterPush (pc : PushPc ι) : (s.afterPush c q pc ev).pop = s.pop := rfl
@[simp] theorem pop_afterPop (pc : PopPc ι) :
    (s.afterPop c q pc ev).pop = Function.update s.pop c pc := rfl
@[simp] theorem pop_afterEject (pc : EjectPc ι) : (s.afterEject c q pc ev).pop = s.pop := rfl
@[simp] theorem eject_afterPush (pc : PushPc ι) : (s.afterPush c q pc ev).eject = s.eject := rfl
@[simp] theorem eject_afterPop (pc : PopPc ι) : (s.afterPop c q pc ev).eject = s.eject := rfl
@[simp] theorem eject_afterEject (pc : EjectPc ι) :
    (s.afterEject c q pc ev).eject = Function.update s.eject c pc := rfl
@[simp] theorem trace_afterPush (pc : PushPc ι) :
    (s.afterPush c q pc ev).trace = s.trace ++ ev := rfl
@[simp] theorem trace_afterPop (pc : PopPc ι) :
    (s.afterPop c q pc ev).trace = s.trace ++ ev := rfl
@[simp] theorem trace_afterEject (pc : EjectPc ι) :
    (s.afterEject c q pc ev).trace = s.trace ++ ev := rfl

end Fields

/-- The steps of the system, by the call that moves. -/
inductive Step (s : QueueState ι n) : QueueAct ι → QueueState ι n → Prop
  | pushCall {c a} : s.push c = .idle →
      Step s (.push c a) (s.afterPush c (s.queue.pushCall c).1 (.counted c) [])
  | push {c a pc q' pc' ev} : s.push c = pc → PushStep s.queue pc q' pc' ev →
      Step s (.push c a) (s.afterPush c q' pc' ev)
  | popCall {p l} : s.pop p = .idle →
      Step s (.pop p l)
        (s.afterPop p (s.queue.popCall none).1 (.probe none s.queue.popIndex 0) [])
  | pop {p l pc q' pc' ev} : s.pop p = pc → PopStep s.queue pc q' pc' ev →
      Step s (.pop p l) (s.afterPop p q' pc' ev)
  | ejectCall {e} : s.eject e = .idle →
      Step s (.eject e) (s.afterEject e s.queue.ejectCall.1 (.sweep 0 []) [])
  | eject {e pc q' pc' ev} : s.eject e = pc → EjectStep s.queue pc q' pc' ev →
      Step s (.eject e) (s.afterEject e q' pc' ev)

theorem step_spec {s s' : QueueState ι n} {a : QueueAct ι} (h : s.step a = some s') :
    Step s a s' := by
  cases a with
  | push c answer =>
    simp only [step] at h
    split at h
    · next hidle =>
      cases h
      exact .pushCall hidle
    · obtain ⟨⟨q', pc', ev⟩, hr, rfl⟩ := Option.map_eq_some_iff.mp h
      exact .push rfl (pushStep_spec hr)
  | pop p locked =>
    simp only [step] at h
    split at h
    · next hidle =>
      cases h
      exact .popCall hidle
    · obtain ⟨⟨q', pc', ev⟩, hr, rfl⟩ := Option.map_eq_some_iff.mp h
      exact .pop rfl (popStep_spec hr)
  | eject e =>
    simp only [step] at h
    split at h
    · next hidle =>
      cases h
      exact .ejectCall hidle
    · obtain ⟨⟨q', pc', ev⟩, hr, rfl⟩ := Option.map_eq_some_iff.mp h
      exact .eject rfl (ejectStep_spec hr)

end QueueState

/-- Any number of calls on one queue with `n` sub-queues, in any interleaving. -/
def queueSystem (ι : Type*) [DecidableEq ι] (n : ℕ) : System (QueueState ι n) (QueueAct ι) where
  Init s := s = .initial
  step := QueueState.step

end Sgrpc
