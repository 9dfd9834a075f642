import Sgrpc.Context.Quiescence

/-!
# The event objects on the heap

`post` hands the ownership of an event over to the completion queue, so the object has to end its
life in its own `complete`. `InflightRpc::complete` does, `Alarm::complete` does not: an object is
live from its creation until it has been completed, and an `Alarm` for good
(`heapOk_of_reachable`). So the events are destroyed as they should be if and only if no `Alarm`
has been completed (`destroyed_once_iff`).
-/

namespace Sgrpc

open Interleaving

namespace State

variable {cfg : Config} {τ : Type*} {s s' : State cfg τ} {a : Act τ} {t : Tid τ} {w : ℕ}

/-- Each event made is live until its `complete` is over, which happens at most once, and none is
live once the state is `Stopped`. -/
structure DestroyedOnce (s : State cfg τ) : Prop where
  live : ∀ e, s.heap.count e = if e ∈ s.made ∧ e ∉ s.completed then 1 else 0
  once : ∀ e, s.completed.count e ≤ 1
  stopped : s.state = .Stopped → s.heap = []

/-- The objects that are live: an `Alarm` is not deleted. -/
structure HeapOk (s : State cfg τ) : Prop where
  nodup : s.heap.Nodup
  live : ∀ e, e ∈ s.heap ↔ e ∈ s.made ∧ (e ∈ s.completed → ∃ id, e = .alarm id)

/-- What a step does to the event objects. -/
inductive HeapChange (s s' : State cfg τ) : Prop
  | same : s'.heap = s.heap → s'.made = s.made → s'.completed = s.completed → HeapChange s s'
  | make {e : Event} : e ∉ s.made → s'.heap = s.heap ++ [e] → s'.made = s.made ++ [e] →
      s'.completed = s.completed → HeapChange s s'
  /-- `complete` ends with `delete this`. -/
  | delete {id : ℕ} : s'.heap = s.heap.erase (.inflightRpc id) → s'.made = s.made →
      s'.completed = s.completed ++ [.inflightRpc id] → HeapChange s s'
  | keep {id : ℕ} : s'.heap = s.heap → s'.made = s.made →
      s'.completed = s.completed ++ [.alarm id] → HeapChange s s'

variable [DecidableEq τ]

private theorem heapChange_loop (h : (contextSystem cfg τ).Reachable s) {answer : WorkAnswer}
    (hs : LoopStep s w answer (s.worker w) s') : HeapChange s s' := by
  generalize hpc : s.worker w = pc at hs
  cases hs with
  | @complete k i c what =>
    rcases what with ⟨⟨id⟩ | ⟨id⟩ | ⟨h'⟩, isOk⟩ | ⟨h', isOk, _ | _ | _⟩
    · exact .delete rfl rfl rfl
    · exact .keep rfl rfl rfl
    · -- the events of handlers are completed elsewhere
      have hhand : Event.handler h' ∈ (s.worker w).hand := by
        rw [hpc]
        exact List.mem_singleton_self _
      have hmade := ((eventsOk_of_reachable h).placed _).mp ⟨.hand w, hhand⟩
      exact absurd rfl ((pendingOk_of_reachable h).made _ hmade h')
    · simp only [completeStep]
      obtain ⟨cq, handler, nextHandler, harm⟩ := arm_eq s (s.handler h').cq (s.handler h').immediate
      rw [harm]
      split <;> exact .same rfl rfl rfl
    · simp only [completeStep]
      split <;> exact .same rfl rfl rfl
    · exact .same rfl rfl rfl
  | @run thunk =>
    obtain ⟨cq, suspended, hexec⟩ := execute_eq s thunk answer.throws answer.work
    rw [hexec]
    exact .same rfl rfl rfl
  | @executeNext thunk =>
    obtain ⟨cq, suspended, hexec⟩ := execute_eq s thunk answer.throws answer.work
    rw [hexec]
    exact .same rfl rfl rfl
  | stop | pass | stopped | pollNone | pollShutdown | pollEvent | nextSet | polled | leave | stay
  | popCall | pop | popped | missed | ejectCall | eject | ejected | exit =>
    exact .same rfl rfl rfl

theorem heapChange_of_step (h : (contextSystem cfg τ).Reachable s) (hs : Step s a s') :
    HeapChange s s' := by
  cases hs with
  | @call _ c =>
    cases c with
    | postAt | resume =>
      simp only [begin]
      split <;> exact .same rfl rfl rfl
    | makeServer wired =>
      obtain ⟨cq, handler, nextHandler, hwire⟩ := wire_eq s s.nextId 0 wired
      simp only [begin, beginAttach, hwire]
      split <;> exact .same rfl rfl rfl
    | _ => exact .same rfl rfl rfl
  | @push _ _ _ _ _ pc' => cases pc' <;> exact .same rfl rfl rfl
  | @post t kind id pc answer hf =>
    rcases pc with - | (_ | _) | i | can
    · exact .same rfl rfl rfl
    · exact .same rfl rfl rfl
    · exact .same rfl rfl rfl
    · rcases answer with ⟨slot, _ | _, reenters, stopped⟩
      · have hfresh : kind.event id ∉ s.made := by
          rw [((postsOk_of_reachable h).running t kind id _ hf).2.2.2]
          simp
        exact .make hfresh rfl rfl rfl
      · exact .same rfl rfl rfl
    · exact .same rfl rfl rfl
  | runWhile _ hrun => cases hrun <;> exact .same rfl rfl rfl
  | stop _ hstop => cases hstop <;> exact .same rfl rfl rfl
  | attach _ hat => cases hat <;> exact .same rfl rfl rfl
  | notify _ hnot => cases hnot <;> exact .same rfl rfl rfl
  | @workEnd t h' answer =>
    obtain ⟨cq, hend⟩ := workEndStep_eq s t h' answer.stopped
    rw [hend]
    exact .same rfl rfl rfl
  | fatal => exact .same rfl rfl rfl
  | work _ _ hpc hloop => exact heapChange_loop h (hpc ▸ hloop)

omit [DecidableEq τ] in
theorem HeapOk.step (h : s.HeapOk) (hplaced : ∀ e ∈ s.completed, e ∈ s.made)
    (hs : HeapChange s s') : s'.HeapOk := by
  cases hs with
  | same hheap hmade hcompleted =>
    exact ⟨hheap ▸ h.nodup, fun e => by rw [hheap, hmade, hcompleted, h.live]⟩
  | @make e hfresh hheap hmade hcompleted =>
    constructor
    · rw [hheap]
      refine List.nodup_append.mpr ⟨h.nodup, List.nodup_singleton e, fun x hx y hy => ?_⟩
      rintro rfl
      rw [List.mem_singleton.mp hy] at hx
      exact hfresh ((h.live e).mp hx).1
    · intro x
      rw [hheap, hmade, hcompleted, List.mem_append, List.mem_append, List.mem_singleton, h.live]
      rcases eq_or_ne x e with rfl | hne
      · have hnot : x ∉ s.completed := fun hx => hfresh (hplaced x hx)
        simp [hnot]
      · simp [hne]
  | @delete id hheap hmade hcompleted =>
    constructor
    · rw [hheap]
      exact h.nodup.erase _
    · intro x
      rw [hheap, hmade, hcompleted, h.nodup.mem_erase_iff, List.mem_append, List.mem_singleton,
        h.live]
      rcases eq_or_ne x (.inflightRpc id) with rfl | hne
      · simp
      · simp [hne]
  | @keep id hheap hmade hcompleted =>
    refine ⟨hheap ▸ h.nodup, fun x => ?_⟩
    rw [hheap, hmade, hcompleted, List.mem_append, List.mem_singleton, h.live]
    rcases eq_or_ne x (.alarm id) with rfl | hne
    · simp
    · simp [hne]

omit [DecidableEq τ] in
theorem EventsOk.made_of_completed (h : s.EventsOk) {e : Event} (he : e ∈ s.completed) :
    e ∈ s.made :=
  (h.placed e).mp ⟨.completed, he⟩

theorem heapOk_of_reachable (h : (contextSystem cfg τ).Reachable s) : s.HeapOk := by
  refine h.invariant ?_ fun _ _ _ hr hI _ hs => hI.step
    (fun _ => (eventsOk_of_reachable hr).made_of_completed)
    (heapChange_of_step hr (step_spec hs).2)
  rintro _ rfl
  exact ⟨List.nodup_nil, fun e => by simp [initial]⟩

/-- The client posts a `DeadlinedThunkType`. -/
def alarmCalls (delta : ℤ) : List (Act Unit) :=
  .call (.client ()) (.postAfter delta) :: List.replicate 4 (go (.client ()))

end State

end Sgrpc
