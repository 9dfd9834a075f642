import Sgrpc.Context.Posts
import Sgrpc.Context.Queues

/-!
# The handshake between `post` and `stop`

`post` increments `within_cq_post_` and then reads the state; `stop` changes the state and then
waits for `within_cq_post_ == 0` before it halts the queues. So whoever is about to create an
event has read a state that still allowed it, and no queue of the context has been halted
(`HaltOk`): no event is ever started on one of them behind its `Shutdown()`.
-/

namespace Sgrpc

open Interleaving

/-- This `stop` has found `within_cq_post_ == 0`. -/
def StopPc.Past : StopPc → Prop
  | .setting | .lost | .waiting => False
  | _ => True

/-- This `post` has read a state in which it may create its event, and not yet done so. -/
def PostPc.Deciding : PostPc → Prop
  | .decided true | .creating _ => True
  | _ => False

theorem StopPc.Past.won {pc : StopPc} (h : pc.Past) : pc.Won := by
  rw [won_iff]
  constructor
  · rintro rfl
    exact h
  · rintro rfl
    exact h

namespace State

variable {cfg : Config} {τ : Type*} {s s' : State cfg τ} {a : Act τ} {t : Tid τ} {w : ℕ}

/-- Some `stop` has found `within_cq_post_ == 0`. -/
def Halted (s : State cfg τ) : Prop :=
  s.state = .Stopped ∨ ∃ t pc, s.frame t = some (.stop pc) ∧ pc.Past

/-- While posts are accepted, nothing has been halted. -/
theorem StopOk.not_halted (h : s.StopOk) (hpost : s.state.canPost = true) : ¬ s.Halted := by
  rw [ExecutionState.canPost_iff] at hpost
  rintro (hst | ⟨t, pc, hf, hpc⟩)
  · simp [hst] at hpost
  · by_cases hd : pc.Draining
    · simp [h.draining t pc hf hd] at hpost
    · simp [h.published t pc hf hpc.won hd] at hpost

variable [DecidableEq τ]

/-- A `stop` that is past the wait stays so until the state is `Stopped`. -/
theorem Halted.step (h : s.Halted) (hstop : s.StopOk) (hs : LifeStep s a s') : s'.Halted := by
  cases hs with
  | same hsame =>
    rcases h with hst | ⟨t, pc, hf, hpc⟩
    · exact Or.inl (hsame.state.trans hst)
    · exact Or.inr ⟨t, pc, (hsame.stop t pc).mpr hf, hpc⟩
  | @callRun t hidle =>
    rcases h with hst | ⟨u, pc, hf, hpc⟩
    · exact Or.inl hst
    · exact Or.inr ⟨u, pc, update_frame_of_frame hf (by simp [hidle]), hpc⟩
  | @callStop t _ _ hidle hframe hstate =>
    rcases h with hst | ⟨u, pc, hf, hpc⟩
    · exact Or.inl (hstate.trans hst)
    · refine Or.inr ⟨u, pc, ?_, hpc⟩
      rw [hframe]
      exact update_frame_of_frame hf (by simp [hidle])
  | @runWhile t pc _ _ hf hrun =>
    rcases h with hst | ⟨u, qc, hu, hq⟩
    · left
      cases hrun with
      | win hready => simp [hst] at hready
      | lock | lose | unlock | giveUp | spawn | store | done => exact hst
    · refine Or.inr ⟨u, qc, ?_, hq⟩
      have helse : s.frame t ≠ some (.stop qc) := by simp [hf]
      cases hrun <;> exact update_frame_of_frame hu helse
  | @stop t pc _ _ hf hstep =>
    -- the winner moves to a point past the wait
    have hmove : ∀ {pc'}, s'.frame = Function.update s.frame t (some (.stop pc')) → pc'.Past →
        s'.Halted := by
      intro pc' hframe hpc'
      exact Or.inr ⟨t, pc', by rw [hframe, Function.update_self], hpc'⟩
    cases hstep with
    | yield | selfJoin | abort => exact h
    | win hstate => exact absurd h (hstop.not_halted (by simp [hstate, ExecutionState.canPost_iff]))
    | lose | giveUp =>
      rcases h with hst | ⟨u, qc, hu, hq⟩
      · exact Or.inl hst
      · refine Or.inr ⟨u, qc, update_frame_of_frame hu fun heq => ?_, hq⟩
        rw [hf] at heq
        cases heq
        exact hq
    | proceed | halt | range | join | joined | clear | lock | publish | keep | swap | unlock
    | notify | resume | reenter | relock | reaccept | rerefuse | repush | reunlock =>
      exact hmove rfl trivial
    | done => exact Or.inl (hstop.published t _ hf trivial id)

/-- The step after which something is halted found `within_cq_post_ == 0`. -/
theorem halted_of_step (h : s'.Halted) (hs : LifeStep s a s') :
    s.Halted ∨ (s.withinCqPost = 0 ∧ ∃ t answer, a = .api t answer ∧
      s.frame t = some (.stop .waiting)) := by
  cases hs with
  | same hsame =>
    left
    rcases h with hst | ⟨t, pc, hf, hpc⟩
    · exact Or.inl (hsame.state ▸ hst)
    · exact Or.inr ⟨t, pc, (hsame.stop t pc).mp hf, hpc⟩
  | @callRun t hidle =>
    left
    rcases h with hst | ⟨u, pc, hf, hpc⟩
    · exact Or.inl hst
    · exact Or.inr ⟨u, pc, frame_of_update_frame hf (by simp), hpc⟩
  | @callStop t _ _ hidle hframe hstate =>
    left
    rcases h with hst | ⟨u, pc, hf, hpc⟩
    · exact Or.inl (hstate ▸ hst)
    · rw [hframe] at hf
      refine Or.inr ⟨u, pc, frame_of_update_frame hf ?_, hpc⟩
      rintro ⟨⟩
      exact hpc
  | @runWhile t pc _ _ hf hrun =>
    left
    rcases h with hst | ⟨u, qc, hu, hq⟩
    · left
      cases hrun with
      | win => cases hst
      | lock | lose | unlock | giveUp | spawn | store | done => exact hst
    · refine Or.inr ⟨u, qc, ?_, hq⟩
      cases hrun <;> exact frame_of_update_frame hu (by simp)
  | @stop t pc answer _ hf hstep =>
    cases hstep with
    | proceed hzero => exact Or.inr ⟨hzero, t, answer, rfl, hf⟩
    | yield | selfJoin | abort => exact Or.inl h
    | win =>
      left
      rcases h with hst | ⟨u, qc, hu, hq⟩
      · cases hst
      · refine Or.inr ⟨u, qc, frame_of_update_frame hu ?_, hq⟩
        rintro ⟨⟩
        exact hq
    | lose =>
      left
      rcases h with hst | ⟨u, qc, hu, hq⟩
      · exact Or.inl hst
      · refine Or.inr ⟨u, qc, frame_of_update_frame hu ?_, hq⟩
        rintro ⟨⟩
        exact hq
    | giveUp =>
      left
      rcases h with hst | ⟨u, qc, hu, hq⟩
      · exact Or.inl hst
      · exact Or.inr ⟨u, qc, frame_of_update_frame hu (by simp), hq⟩
    | halt | range | join | joined | clear | lock | publish | keep | swap | unlock | notify | resume
    | reenter | relock | reaccept | rerefuse | repush | reunlock | done =>
      exact Or.inl (Or.inr ⟨t, _, hf, trivial⟩)

/-- No event is started on a queue of the context behind its `Shutdown()`. -/
structure HaltOk (s : State cfg τ) : Prop where
  deciding : ∀ t kind id pc, s.frame t = some (.post kind id pc) → pc.Deciding → ¬ s.Halted
  shut : ∀ i, (s.cq (.own i)).isShutdown = true → s.Halted
  late : ∀ i, (s.cq (.own i)).late = false

/-- Where a `post` gets to in one step. -/
theorem frame_postStep (s : State cfg τ) (t : Tid τ) (kind : PostKind) (id : ℕ) (throws : Bool)
    (pc : PostPc) : ∃ next : Option PostPc,
    (s.postStep t kind id throws pc).frame =
        Function.update s.frame t (next.map fun pc' => .post kind id pc') ∧
      ∀ pc', next = some pc' → (pc'.Deciding → s.state.canPost = true ∨ pc.Deciding) ∧
        ∀ i, pc' = .creating i → i < cfg.nCqs := by
  rcases pc with - | (_ | _) | i | can
  · refine ⟨some (.decided s.state.canPost), rfl, ?_⟩
    rintro _ ⟨⟩
    refine ⟨fun hdec => Or.inl ?_, fun i hi => by cases hi⟩
    by_contra hcan
    rw [Bool.eq_false_iff.mpr hcan] at hdec
    exact hdec
  · refine ⟨some (.leaving false), rfl, ?_⟩
    rintro _ ⟨⟩
    exact ⟨fun hdec => False.elim hdec, fun i hi => by cases hi⟩
  · refine ⟨some (.creating (s.nextCqWriteIndex % cfg.nCqs)), rfl, ?_⟩
    rintro _ ⟨⟩
    refine ⟨fun _ => Or.inr trivial, ?_⟩
    rintro _ ⟨⟩
    exact Nat.mod_lt _ cfg.nCqs_pos
  · cases throws with
    | true => exact ⟨none, rfl, fun _ hnext => by cases hnext⟩
    | false =>
      refine ⟨some (.leaving true), rfl, ?_⟩
      rintro _ ⟨⟩
      exact ⟨fun _ => Or.inr trivial, fun i hi => by cases hi⟩
  · exact ⟨none, rfl, fun _ hnext => by cases hnext⟩

/-- Whoever is about to create an event finds nothing halted. -/
theorem HaltOk.deciding_step (h : s.HaltOk) (hstop : s.StopOk) (hwithin : s.WithinCounts)
    (hlife : LifeStep s a s') (hpost : PostChange s a s') {u : Tid τ} {kind : PostKind} {id : ℕ}
    {pc : PostPc} (hu : s'.frame u = some (.post kind id pc)) (hpc : pc.Deciding) :
    ¬ s'.Halted := by
  intro hhalted
  rcases halted_of_step hhalted hlife with hold | ⟨hzero, t, answer, rfl, hwait⟩
  · cases hpost with
    | same hsame => exact h.deciding u kind id pc ((hsame.post ..).mp hu) hpc hold
    | call =>
      rcases update_frame_iff.mp hu with ⟨-, heq⟩ | ⟨-, hu'⟩
      · cases heq
        exact hpc
      · exact h.deciding u kind id pc hu' hpc hold
    | @post t kind' id' pc' answer hf =>
      obtain ⟨next, hframe, hnext⟩ := frame_postStep s t kind' id' answer.throws pc'
      rw [hframe, update_frame_iff] at hu
      rcases hu with ⟨-, heq⟩ | ⟨-, hu⟩
      · obtain ⟨pc'', hpc'', hmoved⟩ := Option.map_eq_some_iff.mp heq
        cases hmoved
        -- it comes from another such point, or has just read the state
        rcases (hnext pc hpc'').1 hpc with hcan | hdec
        · exact hstop.not_halted hcan hold
        · exact h.deciding t kind id pc' hf hdec hold
      · exact h.deciding u kind id pc hu hpc hold
  · -- the step found that nobody is in such a `post`
    have hnone := hwithin.not_inPost hzero
    cases hpost with
    | same hsame =>
      refine hnone u ?_
      rw [(hsame.post ..).mp hu]
      trivial
    | post hf =>
      rw [hwait] at hf
      cases hf

/-- The marks of a queue in `cqs_` change by `Shutdown()` and by events made alone. -/
theorem HaltOk.step (h : s.HaltOk) (hstop : s.StopOk) (hwithin : s.WithinCounts)
    (hlife : LifeStep s a s') (hpost : PostChange s a s') (hown : OwnStep s a s') :
    s'.HaltOk := by
  have hhalted : s.Halted → s'.Halted := fun hh => hh.step hstop hlife
  refine ⟨fun u kind id pc hu hpc => h.deciding_step hstop hwithin hlife hpost hu hpc, ?_, ?_⟩
  · intro i hi
    cases hown with
    | same hsame =>
      rw [hsame.own i] at hi
      exact hhalted (h.shut i hi)
    | @create t kind id j _ _ _ hf =>
      have hi' : (Function.update s.cq (.own j) ((s.cq (.own j)).start (kind.event id))
          (.own i)).isShutdown = true := hi
      rcases eq_or_ne i j with rfl | hij
      · rw [Function.update_self] at hi'
        exact hhalted (h.shut i hi')
      · rw [Function.update_of_ne (by simpa using hij)] at hi'
        exact hhalted (h.shut i hi')
    | halt hf => exact hhalted (Or.inr ⟨_, _, hf, trivial⟩)
    | @take w k i' m c q e isOk answer hw hlt hq he =>
      have hi' : (Function.update s.cq q { s.cq q with pending := (s.cq q).pending.eraseIdx m }
          (.own i)).isShutdown = true := hi
      rcases eq_or_ne (.own i) q with hiq | hiq
      · subst hiq
        rw [Function.update_self] at hi'
        exact hhalted (h.shut i hi')
      · rw [Function.update_of_ne hiq] at hi'
        exact hhalted (h.shut i hi')
  · intro i
    cases hown with
    | same hsame => rw [hsame.own i, h.late i]
    | @create t kind id j _ _ _ hf =>
      show (Function.update s.cq (.own j) ((s.cq (.own j)).start (kind.event id)) (.own i)).late
        = false
      rcases eq_or_ne i j with rfl | hij
      · -- its `Shutdown()` has not been called, since the call has read that it may post
        have hopen : (s.cq (.own i)).isShutdown = false := by
          rw [Bool.eq_false_iff]
          exact fun hshut => h.deciding t kind id _ hf trivial (h.shut i hshut)
        rw [Function.update_self]
        simp [CompletionQueue.start, h.late i, hopen]
      · rw [Function.update_of_ne (by simpa using hij), h.late i]
    | @halt t k q _ hf =>
      show (Function.update s.cq q (s.cq q).shutdown (.own i)).late = false
      rcases eq_or_ne (.own i) q with hiq | hiq
      · subst hiq
        rw [Function.update_self]
        exact h.late i
      · rw [Function.update_of_ne hiq, h.late i]
    | @take w k i' m c q e isOk answer hw hlt hq he =>
      show (Function.update s.cq q { s.cq q with pending := (s.cq q).pending.eraseIdx m }
        (.own i)).late = false
      rcases eq_or_ne (.own i) q with hiq | hiq
      · subst hiq
        rw [Function.update_self]
        exact h.late i
      · rw [Function.update_of_ne hiq, h.late i]

theorem haltOk_of_reachable (h : (contextSystem cfg τ).Reachable s) : s.HaltOk := by
  refine h.invariant ?_ fun _ _ _ hr hI _ hs => ?_
  · rintro _ rfl
    exact ⟨fun _ _ _ _ hf => (by cases hf), fun _ hshut => (by cases hshut), fun _ => rfl⟩
  · have hstep := (step_spec hs).2
    exact hI.step (stopOk_of_reachable hr) (withinCounts_of_reachable hr) (lifeStep_of_step hstep)
      (postChange_of_step hstep) (ownStep_of_step (serverHandlers_of_reachable hr) hstep)

end State

end Sgrpc
