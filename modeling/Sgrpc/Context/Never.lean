import Sgrpc.Context.Completion
import Sgrpc.Context.Schedule

/-!
# What a context never does

Whatever the interleaving, nothing that has been posted is executed or completed twice, and nothing
that has been refused ever is (`nothing_twice`).

`std::terminate` is called in five ways only: a thread joins itself in `stop`, `threads_` is
cleared while a thread in it has not been joined, the allocator fails in a `push` whose caller is
`noexcept`, a factory throws in the `invoke` of an RPC operation, or an exception of the code that
a worker runs is caught by nobody but its loop. When the threads are in `threads_` as `stop` reads
it, no worker stops the context, and nothing throws there, it is never called (`never_terminates`).
-/

namespace Sgrpc

open Interleaving
open AtomicTaskStealingQueue (PushStep)

namespace State

variable {cfg : Config} {τ : Type*} [DecidableEq τ] {s s' : State cfg τ} {a : Act τ} {t : Tid τ}

/-! ### Nothing is done twice -/

/-- **Nothing is done twice**, in every interleaving: no thunk is executed twice, and one that has
been refused never is; no operation of the scheduler signals twice; and no event that `post` has
made is completed twice, nor one that it has not made. -/
theorem nothing_twice (h : (contextSystem cfg τ).Reachable s) :
    (∀ f, s.executed.count f ≤ 1 ∧ (s.returned f = some false → s.executed.count f = 0)) ∧
    (∀ id, (s.signals.map Prod.fst).count id ≤ 1 ∧
      (s.returned ⟨id, .complete⟩ = some false → (s.signals.map Prod.fst).count id = 0)) ∧
    ∀ e, s.completed.count e ≤ 1 ∧ (s.posted e = some false → s.completed.count e = 0) := by
  have hpushes := pushesOk_of_reachable h
  have hthunks := thunksOk_of_reachable h
  have hevents := eventsOk_of_reachable h
  have hexecuted : ∀ f, s.executed.count f ≤ 1 ∧
      (s.returned f = some false → s.executed.count f = 0) := by
    refine fun f => ⟨List.nodup_iff_count_le_one.mp (hthunks.linear.nodup .executed) f,
      fun hret => ?_⟩
    by_contra hne
    have hmem : f ∈ s.executed := List.count_pos_iff.mp (Nat.pos_of_ne_zero hne)
    -- what has been executed has read that the queue is open
    have htested := hpushes.tested_of_stored ((hthunks.placed f).mp ⟨.executed, hmem⟩)
    rw [hpushes.returned f false hret] at htested
    cases htested
  refine ⟨hexecuted, fun id => ?_, fun e => ?_⟩
  · rw [hthunks.signals]
    exact hexecuted ⟨id, .complete⟩
  · refine ⟨List.nodup_iff_count_le_one.mp (hevents.linear.nodup .completed) e, fun hret => ?_⟩
    by_contra hne
    have hmem : e ∈ s.completed := List.count_pos_iff.mp (Nat.pos_of_ne_zero hne)
    have hmade := (hevents.placed e).mp ⟨.completed, hmem⟩
    have hfalse := ((postsOk_of_reachable h).returned e false hret).1.mpr hmade
    cases hfalse

theorem nothing_twice_executeTurns : ∃ s : State oneThread Unit,
    s.executed = [⟨0, .complete⟩] ∧ s.signals = [(0, .set_value)] ∧
      ∀ f, s.executed.count f ≤ 1 ∧ (s.returned f = some false → s.executed.count f = 0) := by
  let S := contextSystem oneThread Unit
  let s := (S.exec .initial (scheduleCalls ++ runCalls ++ executeTurns)).get (by decide)
  have hs : S.Reachable s := System.reachable_of_exec rfl (Option.some_get _).symm
  exact ⟨s, by decide, by decide, (nothing_twice hs).1⟩

/-! ### No `std::terminate` -/

/-- No allocation fails in the `push` of a `noexcept` caller. -/
def Allocates (s : State cfg τ) : Act τ → Prop
  | .api t answer => ∀ f pc, s.frame t = some (.push f pc) → f.body ≠ .user →
      answer.slot ≠ .badAlloc
  | _ => True

/-- No exception leaves `invoke`, or gets to the loop of a worker. -/
def Contains (s : State cfg τ) : Act τ → Prop
  | .api t answer => ∀ kind id i, s.frame t = some (.post kind id (.creating i)) →
      kind.isNoexcept = true → answer.throws = false
  | .work w answer => s.Fatal (s.worker w) → answer.throws = false
  | .call _ _ => True

/-- The thread destroys a thread that has not been joined. -/
def AtAbort (s : State cfg τ) (t : Tid τ) : Prop :=
  s.frame t = some (.stop .clearing) ∧ ¬ ∀ w ∈ s.threads, 0 < s.joins w

omit [DecidableEq τ] in
/-- An exception leaves a `push` only when the allocator fails. -/
theorem slot_of_threw {q q' : AtomicTaskStealingQueue Thunk cfg.nTaskQueues} {pc : PushPc Thunk}
    {slot : OptimisiticLockingQueue.PushAnswer} {f : Thunk} {ev : List (QueueEvent Thunk)}
    (h : q.pushStep slot pc = some (q', .threw f, ev)) : slot = .badAlloc := by
  cases pc with
  | probe g o i =>
    simp only [AtomicTaskStealingQueue.pushStep] at h
    split at h
    · cases h
    · cases slot with
      | badAlloc => rfl
      | busy | free => simp [OptimisiticLockingQueue.tryPush] at h
  | counted g =>
    simp only [AtomicTaskStealingQueue.pushStep] at h
    split at h <;> cases h
  | next | leaving => cases h
  | idle | returned | threw => simp [AtomicTaskStealingQueue.pushStep] at h

/-- A `push` that ends in `std::terminate` is that of a `noexcept` caller. -/
theorem badAlloc_of_pushStep {f : Thunk} {pc : PushPc Thunk}
    {slot : OptimisiticLockingQueue.PushAnswer} (h : s.pushStep t f pc slot = some s')
    (hgoing : s.terminated = false) (hterm : s'.terminated = true) :
    f.body ≠ .user ∧ slot = .badAlloc := by
  obtain ⟨⟨q', pc', ev⟩, hr, rfl⟩ := Option.map_eq_some_iff.mp h
  cases pc' with
  | threw g => exact ⟨by simpa using hterm, slot_of_threw hr⟩
  | _ =>
    have hkept : s.terminated = true := hterm
    rw [hgoing] at hkept
    cases hkept

/-- What makes a step end in `std::terminate`. -/
theorem terminated_of_step (hs : s.step a = some s') (hterm : s'.terminated = true) :
    s.AtSelfJoin a.thread ∨ s.AtAbort a.thread ∨ ¬ s.Allocates a ∨ ¬ s.Contains a := by
  obtain ⟨hgoing, hstep⟩ := step_spec hs
  have hsame : s'.terminated ≠ s.terminated := by simp [hgoing, hterm]
  cases hstep with
  | @call t c =>
    refine absurd ?_ hsame
    cases c with
    | postAt | resume =>
      simp only [begin]
      split <;> rfl
    | makeServer wired =>
      obtain ⟨cq, handler, nextHandler, hwire⟩ := wire_eq s s.nextId 0 wired
      simp only [begin, beginAttach, hwire]
      split <;> rfl
    | _ => rfl
  | @push t f pc answer _ _ _ hf =>
    refine Or.inr (Or.inr (Or.inl fun hall => ?_))
    simp only [step, hgoing, apiStep, hf] at hs
    obtain ⟨hbody, hslot⟩ := badAlloc_of_pushStep hs hgoing hterm
    exact hall f pc hf hbody hslot
  | @post t kind id pc answer hf =>
    rcases pc with - | (_ | _) | i | can
    · exact absurd rfl hsame
    · exact absurd rfl hsame
    · exact absurd rfl hsame
    · refine Or.inr (Or.inr (Or.inr fun hall => ?_))
      rcases answer with ⟨slot, _ | _, reenters⟩
      · exact hsame rfl
      · cases hall kind id i hf hterm
    · exact absurd rfl hsame
  | runWhile _ hrun => cases hrun <;> exact absurd rfl hsame
  | @stop t pc _ _ hf hstop =>
    cases hstop with
    | selfJoin hk hw ht => exact Or.inl ⟨_, _, _, hf, hk, hw, ht⟩
    | abort hnot => exact Or.inr (Or.inl ⟨hf, hnot⟩)
    | _ => exact absurd rfl hsame
  | attach _ hat => cases hat <;> exact absurd rfl hsame
  | notify _ hnot => cases hnot <;> exact absurd rfl hsame
  | @workEnd t h answer =>
    refine absurd ?_ hsame
    obtain ⟨cq, hend⟩ := workEndStep_eq s t h answer.stopped
    rw [hend]
    rfl
  | fatal _ _ hfatal hthrows =>
    refine Or.inr (Or.inr (Or.inr fun hall => ?_))
    rw [hall hfatal] at hthrows
    cases hthrows
  | work _ _ _ hloop =>
    obtain ⟨_, _, _, _, _, _, _, _, _, _, _, _, rfl, -⟩ := loopStep_eq hloop
    exact absurd rfl hsame

/-- When the range of `threads_` is read completely, all threads are joined before it is cleared. -/
theorem not_atAbort (h : (contextSystem cfg τ).ReachableUnder RangeComplete s) (t : Tid τ) :
    ¬ s.AtAbort t := by
  rintro ⟨hf, hnot⟩
  obtain ⟨hstored, hjoined⟩ := (joinOk_of_reachable h).stop t _ hf
  refine hnot fun w hw => ?_
  rw [hstored.threads] at hw
  rw [hjoined w, if_pos (List.mem_range.mp hw)]
  exact Nat.one_pos

/-- **`std::terminate` is never called** in a run in which all threads are in `threads_` when
`stop` reads its range, no worker makes the change to `ShuttingDown`, no allocation fails in the
`push` of a `noexcept` caller, and no exception leaves `invoke` or gets to the loop of a worker. -/
theorem never_terminates (h : (contextSystem cfg τ).ReachableUnder
      (fun s a => s.RangeComplete a ∧ s.NoWorkerWins a ∧ s.Allocates a ∧ s.Contains a) s) :
    s.terminated = false := by
  induction h with
  | init hi => exact hi ▸ rfl
  | @step u a u' hr hP hs _ =>
    by_contra hterm
    rcases terminated_of_step hs (by simpa using hterm) with ⟨k, last, w, hf, -, -, ht⟩ | habort |
      hall | hall
    · have hr' := hr.mono fun _ _ hQ => hQ.2.1
      rw [ht] at hf
      exact no_worker_won hr' hf trivial
    · exact not_atAbort (hr.mono fun _ _ hQ => hQ.1) _ habort
    · exact hall hP.2.2.1
    · exact hall hP.2.2.2

/-- The action is one of a client or of the loop of a worker, in which nothing fails or throws. -/
def gently (s : State cfg τ) (a : Act τ) : Bool :=
  s.haltsComplete a && match a with
    | .call _ _ => true
    | .api (.client _) answer => answer.slot ≠ .badAlloc && !answer.throws
    | .api (.worker _) _ => false
    | .work _ answer => !answer.throws

omit [DecidableEq τ] in
theorem of_gently (s : State cfg τ) (a : Act τ) (h : s.gently a = true) :
    s.RangeComplete a ∧ s.NoWorkerWins a ∧ s.Allocates a ∧ s.Contains a := by
  obtain ⟨hrange, ha⟩ := Bool.and_eq_true_iff.mp h
  refine ⟨rangeComplete_of_haltsComplete s a hrange, ?_⟩
  rcases a with c | ⟨_ | w, answer⟩ | ⟨v, answer⟩
  · exact ⟨trivial, trivial, trivial⟩
  · have hanswer : answer.slot ≠ .badAlloc ∧ answer.throws = false := by simpa using ha
    exact ⟨trivial, fun _ _ _ _ => hanswer.1, fun _ _ _ _ _ => hanswer.2⟩
  · cases ha
  · exact ⟨trivial, trivial, fun _ => by simpa using ha⟩

/-- The context is run, used and stopped by a client. -/
theorem never_terminates_stopCalls : ∃ s : State oneThread Unit, s.state = .Stopped ∧
    s.executed = [⟨0, .complete⟩] ∧ s.terminated = false := by
  let acts : List (Act Unit) := scheduleCalls ++ runCalls ++ executeTurns ++ stopCalls
  let s := ((contextSystem oneThread Unit).execWhile gently .initial acts).get (by decide)
  have hs : (contextSystem oneThread Unit).ReachableUnder
      (fun s a => s.RangeComplete a ∧ s.NoWorkerWins a ∧ s.Allocates a ∧ s.Contains a) s :=
    System.ReachableUnder.execWhile of_gently (.init rfl) (Option.some_get _).symm
  exact ⟨s, by decide, by decide, never_terminates hs⟩

end State

end Sgrpc
