import Sgrpc.Context.Thunks

/-!
# Starting a `schedule()` operation

`start` of a `Scheduler::Op_` posts a thunk that will complete the receiver, and drops what `post`
returns. An accepted thunk is in one place, once, and its execution sends one signal; a refused
thunk has been stored nowhere, so nobody is left to signal the receiver. Whether the operation
completes is therefore decided when its `push` reads `is_done_` (`completes_iff`).
-/

namespace Sgrpc

open Interleaving

namespace State

variable {cfg : Config} {τ : Type*} {s : State cfg τ} {id : ℕ}

/-- What is owed to the receiver of the operation `id` once its `start` has returned: its thunk has
been accepted, or a signal has been delivered; and if an accepted thunk has been executed exactly
once, the receiver has got exactly one signal. -/
def Completes (s : State cfg τ) (id : ℕ) : Prop :=
  (s.returned ⟨id, .complete⟩ = some true ∨ ∃ signal, (id, signal) ∈ s.signals) ∧
    ((s.returned ⟨id, .complete⟩ = some true → s.executed.count ⟨id, .complete⟩ = 1) →
      (s.signals.map Prod.fst).count id = 1)

/-- A signal has been delivered only if the thunk of the operation has been stored. -/
theorem ThunksOk.stored_of_signal (h : s.ThunksOk) {signal : Signal}
    (hmem : (id, signal) ∈ s.signals) : s.Stored ⟨id, .complete⟩ := by
  have hcount : 0 < (s.signals.map Prod.fst).count id :=
    List.count_pos_iff.mpr (List.mem_map_of_mem hmem)
  rw [h.signals] at hcount
  exact (h.placed _).mp ⟨.executed, List.count_pos_iff.mp hcount⟩

/-- A stored thunk has read that the queue is open. -/
theorem PushesOk.tested_of_stored (h : s.PushesOk) {f : Thunk} (hf : s.Stored f) :
    s.tested f = some false := by
  rcases hf with ⟨t, x, ht⟩ | hret
  · exact (h.running t f _ ht).2.2
  · exact h.returned f true hret

variable [DecidableEq τ]

/-- **When a started operation completes.** Once the `start` of a `schedule()` operation has
returned, its receiver has been given what it is owed if and only if the `push` of its thunk has
read `is_done_ == false`. -/
theorem completes_iff (h : (contextSystem cfg τ).Reachable s) {b : Bool}
    (hret : s.returned ⟨id, .complete⟩ = some b) :
    s.Completes id ↔ s.tested ⟨id, .complete⟩ = some false := by
  have hpushes := pushesOk_of_reachable h
  have hthunks := thunksOk_of_reachable h
  constructor
  · rintro ⟨haccepted | ⟨signal, hmem⟩, -⟩
    · exact hpushes.returned _ _ haccepted
    · exact hpushes.tested_of_stored (hthunks.stored_of_signal hmem)
  · intro htested
    have hb : b = true := by
      have heq := hpushes.returned _ _ hret
      rw [htested] at heq
      simpa using heq
    subst hb
    refine ⟨Or.inl hret, fun honce => ?_⟩
    rw [hthunks.signals]
    exact honce hret

/-- A client starts an operation. -/
def scheduleCalls : List (Act Unit) :=
  .call (.client ()) .schedule :: List.replicate 4 (go (.client ()))

/-- Worker `0` goes once through its loop, and takes a thunk. -/
def executeTurns : List (Act Unit) :=
  List.replicate 8 (.work 0 ⟨false, .timeout, true, false, .finished⟩)

theorem completes_iff_executeTurns : ∃ s : State oneThread Unit,
    s.returned ⟨0, .complete⟩ = some true ∧ s.signals = [(0, .set_value)] ∧
      (s.Completes 0 ↔ s.tested ⟨0, .complete⟩ = some false) := by
  let S := contextSystem oneThread Unit
  let s := (S.exec .initial (scheduleCalls ++ runCalls ++ executeTurns)).get (by decide)
  have hs : S.Reachable s := System.reachable_of_exec rfl (Option.some_get _).symm
  have hret : s.returned ⟨0, .complete⟩ = some true := by decide
  exact ⟨s, hret, by decide, completes_iff hs hret⟩

/-- An operation that is started when the context has been stopped: `start` returns, the thunk has
not been accepted, and no signal has been delivered. -/
theorem exists_start_without_completion : ¬ ∀ (cfg : Config) (s : State cfg Unit) (id : ℕ),
    (contextSystem cfg Unit).Reachable s → s.returned ⟨id, .complete⟩ ≠ none →
      s.returned ⟨id, .complete⟩ = some true ∨ ∃ signal, (id, signal) ∈ s.signals := by
  intro hall
  let S := contextSystem oneThread Unit
  let s := (S.exec .initial (runCalls ++ stopCalls ++ List.replicate 3 (go (.client ())) ++
    scheduleCalls.take 3)).get (by decide)
  have hs : S.Reachable s := System.reachable_of_exec rfl (Option.some_get _).symm
  have hsignals : s.signals = [] := by decide
  rcases hall oneThread s 0 hs (by decide) with haccepted | ⟨signal, hmem⟩
  · exact absurd haccepted (by decide)
  · rw [hsignals] at hmem
    cases hmem

end State

end Sgrpc
