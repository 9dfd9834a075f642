import Sgrpc.Context.Life

/-!
# Joining the workers

`run_while` fills `threads_` after it has released the lock, one thread at a time, and `stop`
reads the range of `threads_` as soon as it has halted the queues. When all threads are in
`threads_` by then, every worker is joined exactly once before the state becomes `Stopped`
(`all_joined_at_stopped`); otherwise threads are created behind it
(`exists_worker_outlives_stopped`).

A worker whose predicate returns `true` calls `stop` too. If it makes the change to
`ShuttingDown`, it is one of the threads it goes on to join: it never gets past itself
(`worker_never_stops`, `exists_self_join`). No thread joins itself as long as no worker makes that
change (`no_self_join`).
-/

namespace Sgrpc

open Interleaving

/-- This `stop` has not read the range of `threads_`. -/
def StopPc.Halting : StopPc → Prop
  | .waiting | .halting _ => True
  | _ => False

theorem StopPc.Halting.draining {pc : StopPc} (h : pc.Halting) : pc.Draining := by
  unfold Halting at h
  split at h
  · trivial
  · trivial
  · exact absurd h id

namespace State

variable {cfg : Config} {τ : Type*} {s s' : State cfg τ} {t : Tid τ} {w : ℕ}

/-! ### Before anyone joins -/

/-- Nobody has been joined, and `threads_` holds what `run_while` has moved there. -/
structure Fresh (s : State cfg τ) : Prop where
  joins : ∀ w, s.joins w = 0
  filling : ∀ t pc, s.frame t = some (.runWhile pc) → pc.Won → s.threads = List.range pc.stored
  filled : (∀ t pc, s.frame t = some (.runWhile pc) → ¬ pc.Won) →
    s.threads = List.range s.created

/-- No `stop` has read the range of `threads_`. -/
def Early (s : State cfg τ) : Prop :=
  s.state = .Ready ∨ s.state = .Running ∨ ∃ t pc, s.frame t = some (.stop pc) ∧ pc.Halting

theorem Fresh.of_same (h : s.Fresh) (hjoins : s'.joins = s.joins)
    (hthreads : s'.threads = s.threads) (hcreated : s'.created = s.created)
    (hframe : ∀ t pc, RunPc.Won pc →
      (s'.frame t = some (.runWhile pc) ↔ s.frame t = some (.runWhile pc))) : s'.Fresh where
  joins w := by rw [hjoins, h.joins]
  filling t pc hf hwon := by
    rw [hthreads]
    exact h.filling t pc ((hframe t pc hwon).mp hf) hwon
  filled hnone := by
    rw [hthreads, hcreated]
    exact h.filled fun t pc hf hwon => hnone t pc ((hframe t pc hwon).mpr hf) hwon

/-- A `stop` that has read the range is past the early part. -/
theorem StopOk.not_early (h : s.StopOk) {pc : StopPc} (hf : s.frame t = some (.stop pc))
    (hwon : pc.Won) (hpc : ¬ pc.Halting) : ¬ s.Early := by
  have hstate : s.state = .ShuttingDown ∨ s.state = .Stopped := by
    by_cases hd : pc.Draining
    · exact Or.inl (h.draining t pc hf hd)
    · exact Or.inr (h.published t pc hf hwon hd)
  rintro (hr | hr | ⟨u, qc, hu, hq⟩)
  · simp [hr] at hstate
  · simp [hr] at hstate
  · obtain rfl := h.unique u t qc pc hu hf hq.draining.won hwon
    rw [hf] at hu
    cases hu
    exact hpc hq

variable [DecidableEq τ] {a : Act τ}

/-- The winner of `run_while` moves on. -/
theorem Fresh.move (h : s.Fresh) (hrun : s.RunOk) {pc pc' : RunPc}
    (hf : s.frame t = some (.runWhile pc))
    (hframe : s'.frame = Function.update s.frame t (some (.runWhile pc'))) (hwon : pc.Won)
    (hwon' : pc'.Won) (hjoins : s'.joins = s.joins)
    (hthreads : s'.threads = List.range pc'.stored) : s'.Fresh where
  joins w := by rw [hjoins, h.joins]
  filling u qc hu hq := by
    rw [hframe, update_frame_iff] at hu
    rcases hu with ⟨-, heq⟩ | ⟨hne, hu⟩
    · cases heq
      exact hthreads
    · exact absurd (hrun.unique u t qc pc hu hf hq hwon) hne
  filled hnone := by
    refine absurd hwon' (hnone t pc' ?_)
    rw [hframe, Function.update_self]

theorem Fresh.runStep (h : s.Fresh) (hrun : s.RunOk) {pc : RunPc}
    (hf : s.frame t = some (.runWhile pc)) (hs : RunStep s t pc s') : s'.Fresh := by
  have hother : ¬ pc.Won → ∀ qc, s.frame t = some (.runWhile qc) → ¬ qc.Won := by
    intro hnot qc hq
    rw [hf] at hq
    cases hq
    exact hnot
  cases hs with
  | lock | lose | giveUp =>
    refine h.of_same rfl rfl rfl (won_run_iff rfl (hother (by simp)) fun qc hq => ?_)
    cases hq <;> simp
  | win hready =>
    obtain ⟨hzero, hnone⟩ := hrun.ready hready
    have hempty : s.threads = [] := by
      rw [h.filled hnone, hzero, List.range_zero]
    refine ⟨h.joins, fun u qc hu hq => ?_, fun hall => ?_⟩
    · rcases update_frame_iff.mp hu with ⟨-, heq⟩ | ⟨-, hu⟩
      · cases heq
        exact hempty
      · exact absurd hq (hnone u qc hu)
    · exact absurd (RunPc.won_unlocking.mpr rfl) (hall t _ (Function.update_self ..))
  | unlock =>
    have hthreads := h.filling t _ hf trivial
    exact h.move hrun hf rfl trivial trivial rfl hthreads
  | spawn =>
    have hthreads := h.filling t _ hf trivial
    exact h.move hrun hf rfl trivial trivial rfl hthreads
  | @store i =>
    refine h.move hrun hf rfl trivial trivial rfl ?_
    have hthreads : s.threads = List.range i := h.filling t _ hf trivial
    show s.threads ++ [i] = List.range (i + 1)
    rw [hthreads, List.range_succ]
  | @done i hi =>
    refine ⟨h.joins, fun u qc hu hq => ?_, fun _ => ?_⟩
    · rcases update_frame_iff.mp hu with ⟨-, heq⟩ | ⟨hne, hu⟩
      · cases heq
      · exact absurd (hrun.unique u t qc _ hu hf hq trivial) hne
    · have hthreads : s.threads = List.range i := h.filling t _ hf trivial
      have hcreated : s.created = i := (hrun.created t _ hf trivial).1
      show s.threads = List.range s.created
      rw [hthreads, hcreated]

/-- A step outside the joins keeps `Fresh`. -/
theorem Fresh.stopStep (h : s.Fresh) {pc : StopPc} (hf : s.frame t = some (.stop pc))
    (hs : StopStep s t pc s') (hearly : s'.Early) (hstop : s'.StopOk) : s'.Fresh := by
  have hold : ∀ qc, s.frame t = some (.runWhile qc) → ¬ qc.Won := fun qc hq => by
    rw [hf] at hq
    cases hq
  cases hs with
  | yield | selfJoin | abort => exact h.of_same rfl rfl rfl fun _ _ _ => Iff.rfl
  | join | clear => exact absurd hearly (hstop.not_early (Function.update_self ..) trivial id)
  | win | publish | lose | giveUp | proceed | halt | range | joined | lock | keep | swap | unlock
  | done | notify | resume | reenter | relock | reaccept | rerefuse | repush | reunlock =>
    exact h.of_same rfl rfl rfl (won_run_iff rfl hold fun qc hq => by cases hq)

/-- A state after which it is early was early itself. -/
theorem early_of_stopStep {pc : StopPc} (hf : s.frame t = some (.stop pc))
    (hs : StopStep s t pc s') (h : s'.Early) : s.Early := by
  -- a thread that moves to no point of the early part
  have hmove : ∀ {f : Option Frame}, s'.frame = Function.update s.frame t f →
      (∀ qc, f = some (.stop qc) → ¬ qc.Halting) → s'.state = s.state → s.Early := by
    intro f hframe hf' hstate
    rcases h with hr | hr | ⟨u, qc, hu, hq⟩
    · exact Or.inl (hstate ▸ hr)
    · exact Or.inr (Or.inl (hstate ▸ hr))
    · rw [hframe, update_frame_iff] at hu
      rcases hu with ⟨-, heq⟩ | ⟨-, hu⟩
      · exact absurd hq (hf' qc heq)
      · exact Or.inr (Or.inr ⟨u, qc, hu, hq⟩)
  cases hs with
  | win hrun => exact Or.inr (Or.inl hrun)
  | yield | proceed | halt | range => exact Or.inr (Or.inr ⟨t, _, hf, trivial⟩)
  | selfJoin | abort => exact h
  | publish hdown =>
    rcases h with hr | hr | ⟨u, qc, hu, hq⟩
    · cases hr
    · cases hr
    · rcases update_frame_iff.mp hu with ⟨-, heq⟩ | ⟨-, hu⟩
      · cases heq
        exact absurd hq id
      · exact Or.inr (Or.inr ⟨u, qc, hu, hq⟩)
  | lose | giveUp | join | joined | clear | lock | keep | swap | unlock | done | notify
  | resume | reenter | relock | reaccept | rerefuse | repush | reunlock =>
    refine hmove rfl (fun qc hq => ?_) rfl
    cases hq <;> exact id

/-- As long as no `stop` has read the range of `threads_`, nobody has been joined. -/
theorem fresh_step (h : s.Early → s.Fresh) (hrun : s.RunOk) (hstop : s.StopOk)
    (hs : LifeStep s a s') (hearly : s'.Early) : s'.Fresh := by
  have hstop' := hstop.step hs
  cases hs with
  | same hsame =>
    have hearly' : s.Early := by
      rcases hearly with hr | hr | ⟨u, qc, hu, hq⟩
      · exact Or.inl (hsame.state ▸ hr)
      · exact Or.inr (Or.inl (hsame.state ▸ hr))
      · exact Or.inr (Or.inr ⟨u, qc, (hsame.stop u qc).mp hu, hq⟩)
    exact (h hearly').of_same hsame.joins hsame.threads hsame.created fun u qc _ => hsame.run u qc
  | @callRun t hidle =>
    have hearly' : s.Early := by
      rcases hearly with hr | hr | ⟨u, qc, hu, hq⟩
      · exact Or.inl hr
      · exact Or.inr (Or.inl hr)
      · exact Or.inr (Or.inr ⟨u, qc, frame_of_update_frame hu (by simp), hq⟩)
    refine (h hearly').of_same rfl rfl rfl (won_run_iff rfl (fun qc hq => ?_) fun qc hq => ?_)
    · rw [hidle] at hq
      cases hq
    · cases hq
      simp
  | @callStop t _ _ hidle hframe hstate hthreads hcreated hjoins =>
    have hearly' : s.Early := by
      rcases hearly with hr | hr | ⟨u, qc, hu, hq⟩
      · exact Or.inl (hstate ▸ hr)
      · exact Or.inr (Or.inl (hstate ▸ hr))
      · rw [hframe, update_frame_iff] at hu
        rcases hu with ⟨-, heq⟩ | ⟨-, hu⟩
        · cases heq
          exact absurd hq id
        · exact Or.inr (Or.inr ⟨u, qc, hu, hq⟩)
    refine (h hearly').of_same hjoins hthreads hcreated
      (won_run_iff hframe (fun qc hq => ?_) fun qc hq => by cases hq)
    rw [hidle] at hq
    cases hq
  | @runWhile t pc _ _ hf hstep =>
    have hearly' : s.Early := by
      have hstate : s'.state = s.state ∨ s.state = .Ready := by
        cases hstep with
        | win hready => exact Or.inr hready
        | lock | lose | unlock | giveUp | spawn | store | done => exact Or.inl rfl
      have hframe : ∀ u qc, s'.frame u = some (.stop qc) → s.frame u = some (.stop qc) := by
        intro u qc hu
        cases hstep <;> exact frame_of_update_frame hu (by simp)
      rcases hstate with hstate | hready
      · rcases hearly with hr | hr | ⟨u, qc, hu, hq⟩
        · exact Or.inl (hstate ▸ hr)
        · exact Or.inr (Or.inl (hstate ▸ hr))
        · exact Or.inr (Or.inr ⟨u, qc, hframe u qc hu, hq⟩)
      · exact Or.inl hready
    exact (h hearly').runStep hrun hf hstep
  | stop hf hstep => exact (h (early_of_stopStep hf hstep hearly)).stopStep hf hstep hearly hstop'

theorem fresh_of_early (h : (contextSystem cfg τ).Reachable s) (hearly : s.Early) : s.Fresh := by
  have hinv : s.Early → s.Fresh := by
    refine h.invariant ?_ fun _ _ _ hr hI _ hs =>
      fresh_step hI (runOk_of_reachable hr) (stopOk_of_reachable hr)
        (lifeStep_of_step (step_spec hs).2)
    rintro _ rfl _
    exact ⟨fun _ => rfl, fun _ _ hf => (by cases hf), fun _ => rfl⟩
  exact hinv hearly

/-! ### Joining all of them -/

/-- When the winning `stop` reads the range of `threads_`, all threads are in it. -/
def RangeComplete (s : State cfg τ) : Act τ → Prop
  | .api t _ => ∀ k, s.frame t = some (.stop (.halting k)) → s.allQueues[k]? = none →
      s.threads.length = cfg.nThreads
  | _ => True

/-- The first `m` workers have been joined once, the others have not been joined. -/
def JoinedUpTo (s : State cfg τ) (m : ℕ) : Prop := ∀ w, s.joins w = if w < m then 1 else 0

/-- All threads have been created and moved into `threads_`. -/
structure AllStored (s : State cfg τ) : Prop where
  threads : s.threads = List.range cfg.nThreads
  created : s.created = cfg.nThreads
  ended : ∀ t pc, s.frame t = some (.runWhile pc) → pc.Won → pc = .spawning cfg.nThreads

/-- All threads have been created and joined once. -/
def AllJoined (s : State cfg τ) : Prop := s.created = cfg.nThreads ∧ s.JoinedUpTo cfg.nThreads

/-- What a `stop` that is at this point has achieved. -/
def Achieved (s : State cfg τ) : StopPc → Prop
  | .setting | .lost | .waiting | .halting _ => True
  | .joining k last => s.AllStored ∧ last = cfg.nThreads ∧ k ≤ last ∧ s.JoinedUpTo k
  | .clearing => s.AllStored ∧ s.JoinedUpTo cfg.nThreads
  | _ => s.AllJoined

/-- Every `stop` has achieved what it should. -/
structure JoinOk (s : State cfg τ) : Prop where
  stop : ∀ t pc, s.frame t = some (.stop pc) → s.Achieved pc
  stopped : s.state = .Stopped → s.AllJoined

omit [DecidableEq τ] in
theorem AllJoined.of_same (h : s.AllJoined) (hcreated : s.created = cfg.nThreads →
    s'.created = cfg.nThreads) (hjoins : s'.joins = s.joins) : s'.AllJoined := by
  refine ⟨hcreated h.1, fun w => ?_⟩
  rw [hjoins]
  exact h.2 w

omit [DecidableEq τ] in
/-- What was achieved stays so while nobody is joined. -/
theorem Achieved.of_same {pc : StopPc} (h : s.Achieved pc)
    (hstored : s.AllStored → s'.AllStored)
    (hcreated : s.created = cfg.nThreads → s'.created = cfg.nThreads)
    (hjoins : s'.joins = s.joins) : s'.Achieved pc := by
  have hup : ∀ {m}, s.JoinedUpTo m → s'.JoinedUpTo m := fun hm w => by rw [hjoins, hm w]
  cases pc with
  | setting | lost | waiting | halting => trivial
  | joining k last => exact ⟨hstored h.1, h.2.1, h.2.2.1, hup h.2.2.2⟩
  | clearing => exact ⟨hstored h.1, hup h.2⟩
  | locking | publishing | swapping | unlocking | notifying | inNotification | registering =>
    exact AllJoined.of_same h hcreated hjoins

omit [DecidableEq τ] in
theorem AllStored.of_same (h : s.AllStored) (hthreads : s'.threads = s.threads)
    (hcreated : s'.created = s.created) (hframe : ∀ t pc, RunPc.Won pc →
      (s'.frame t = some (.runWhile pc) ↔ s.frame t = some (.runWhile pc))) : s'.AllStored where
  threads := hthreads.trans h.threads
  created := hcreated.trans h.created
  ended t pc hf hwon := h.ended t pc ((hframe t pc hwon).mp hf) hwon

omit [DecidableEq τ] in
/-- Once all threads have been created, the state is not `Ready`. -/
theorem RunOk.not_ready (h : s.RunOk) (hall : s.created = cfg.nThreads) : s.state ≠ .Ready := by
  intro hr
  have hpos := cfg.nThreads_pos
  have hzero := (h.ready hr).1
  omega

/-- No more threads are created once all have been. -/
theorem RunOk.created_runStep (h : s.RunOk) {pc : RunPc} (hf : s.frame t = some (.runWhile pc))
    (hs : RunStep s t pc s') (hall : s.created = cfg.nThreads) : s'.created = cfg.nThreads := by
  cases hs with
  | @spawn i hi =>
    have hi' : s.created = i := (h.created t _ hf trivial).1
    omega
  | lock | win | lose | unlock | giveUp | store | done => exact hall

/-- No more threads are moved into `threads_` once all have been. -/
theorem AllStored.runStep (h : s.AllStored) (hrun : s.RunOk) {pc : RunPc}
    (hf : s.frame t = some (.runWhile pc)) (hs : RunStep s t pc s') : s'.AllStored := by
  have hother : ¬ pc.Won → ∀ qc, s.frame t = some (.runWhile qc) → ¬ qc.Won := by
    intro hnot qc hq
    rw [hf] at hq
    cases hq
    exact hnot
  cases hs with
  | lock | lose | giveUp =>
    refine h.of_same rfl rfl (won_run_iff rfl (hother (by simp)) fun qc hq => ?_)
    cases hq <;> simp
  | win hready => exact absurd hready (hrun.not_ready h.created)
  | unlock => cases h.ended t _ hf trivial
  | store => cases h.ended t _ hf trivial
  | @spawn i hi =>
    have hi' : s.created = i := (hrun.created t _ hf trivial).1
    exact absurd (hi'.symm.trans h.created) (Nat.ne_of_lt hi)
  | done =>
    refine ⟨h.threads, h.created, fun u qc hu hq => ?_⟩
    exact h.ended u qc (frame_of_update_frame hu (by simp)) hq

/-- The winner of `stop` moves on. -/
theorem JoinOk.move (hstop : s.StopOk) {pc : StopPc} {f : Option Frame}
    (hf : s.frame t = some (.stop pc)) (hframe : s'.frame = Function.update s.frame t f)
    (hwon : pc.Won) (hnew : ∀ qc, f = some (.stop qc) → s'.Achieved qc)
    (hstopped : s'.state = .Stopped → s'.AllJoined) : s'.JoinOk where
  stop u qc hu := by
    rw [hframe, update_frame_iff] at hu
    rcases hu with ⟨-, heq⟩ | ⟨hne, hu⟩
    · exact hnew qc heq
    · by_cases hq : qc.Won
      · exact absurd (hstop.unique u t qc pc hu hf hq hwon) hne
      · rcases StopPc.not_won_iff.mp hq with rfl | rfl <;> trivial
  stopped := hstopped

/-- The winner of `stop` moves on before the state is `Stopped`. -/
theorem JoinOk.drain (hstop : s.StopOk) {pc pc' : StopPc} (hf : s.frame t = some (.stop pc))
    (hd : pc.Draining) (hframe : s'.frame = Function.update s.frame t (some (.stop pc')))
    (hstate : s'.state = s.state) (hnew : s'.Achieved pc') : s'.JoinOk := by
  refine JoinOk.move hstop hf hframe hd.won (fun qc hq => ?_) fun hst => ?_
  · cases hq
    exact hnew
  · rw [hstate, hstop.draining t pc hf hd] at hst
    cases hst

omit [DecidableEq τ] in
/-- When the range is complete as it is read, all threads are in `threads_`. -/
theorem Fresh.allStored (h : s.Fresh) (hrun : s.RunOk) (hstate : s.state ≠ .Ready)
    (hlen : s.threads.length = cfg.nThreads) : s.AllStored := by
  have hpos := cfg.nThreads_pos
  -- the winning `run_while`, if it is still there, has nothing left to do
  have hover : ∀ t pc, s.frame t = some (.runWhile pc) → pc.Won →
      pc = .spawning cfg.nThreads := by
    intro t pc hf hwon
    have hthreads : s.threads.length = pc.stored := by
      rw [h.filling t pc hf hwon, List.length_range]
    obtain ⟨hcreated, hle⟩ := hrun.created t pc hf hwon
    cases pc with
    | locking | setting => exact absurd hwon (by simp)
    | unlocking b =>
      have hzero : s.threads.length = 0 := hthreads
      omega
    | spawning i =>
      have hi : s.threads.length = i := hthreads
      rw [← hi, hlen]
    | storing i =>
      have hi : s.threads.length = i := hthreads
      have hi' : s.created = i + 1 := hcreated
      omega
  by_cases hwon : ∃ t pc, s.frame t = some (.runWhile pc) ∧ pc.Won
  · obtain ⟨t, pc, hf, hwon⟩ := hwon
    obtain rfl := hover t pc hf hwon
    exact ⟨h.filling t _ hf hwon, (hrun.created t _ hf hwon).1, hover⟩
  · have hnone : ∀ t pc, s.frame t = some (.runWhile pc) → ¬ pc.Won :=
      fun t pc hf hw => hwon ⟨t, pc, hf, hw⟩
    have hcreated := (hrun.complete hstate).resolve_right hwon
    exact ⟨(h.filled hnone).trans (by rw [hcreated]), hcreated, hover⟩

theorem JoinOk.stopStep (h : s.JoinOk) (hrun : s.RunOk) (hstop : s.StopOk)
    (hfresh : s.Early → s.Fresh) {answer : ApiAnswer} (hP : s.RangeComplete (.api t answer))
    {pc : StopPc} (hf : s.frame t = some (.stop pc)) (hs : StopStep s t pc s') : s'.JoinOk := by
  have hach := h.stop t pc hf
  -- the threads of `run_while` are where they were
  have hkept : ∀ {u : State cfg τ} {qc : StopPc},
      u.frame = Function.update s.frame t (some (.stop qc)) → u.threads = s.threads →
      u.created = s.created → s.AllStored → u.AllStored := by
    intro u qc hframe hthreads hcreated hall
    refine hall.of_same hthreads hcreated (won_run_iff hframe (fun _ hq => ?_) fun _ hq => ?_)
    · rw [hf] at hq
      cases hq
    · cases hq
  cases hs with
  | yield => exact h
  | selfJoin | abort =>
    refine ⟨fun u qc hu => ?_, h.stopped⟩
    refine (h.stop u qc hu).of_same (fun hall => ?_) id rfl
    exact hall.of_same rfl rfl fun _ _ _ => Iff.rfl
  | win hstate =>
    refine ⟨fun u qc hu => ?_, fun hst => by cases hst⟩
    rcases update_frame_iff.mp hu with ⟨-, heq⟩ | ⟨-, hu⟩
    · cases heq
      trivial
    · exact (h.stop u qc hu).of_same (hkept rfl rfl rfl) id rfl
  | lose =>
    refine ⟨fun u qc hu => ?_, h.stopped⟩
    rcases update_frame_iff.mp hu with ⟨-, heq⟩ | ⟨-, hu⟩
    · cases heq
      trivial
    · exact (h.stop u qc hu).of_same (hkept rfl rfl rfl) id rfl
  | giveUp =>
    refine ⟨fun u qc hu => ?_, h.stopped⟩
    have hu := frame_of_update_frame hu (by simp)
    refine (h.stop u qc hu).of_same (fun hall => ?_) id rfl
    refine hall.of_same rfl rfl (won_run_iff rfl (fun _ hq => ?_) fun _ hq => by cases hq)
    rw [hf] at hq
    cases hq
  | proceed | halt => exact JoinOk.drain hstop hf trivial rfl rfl trivial
  | @range k hk =>
    have hstate : s.state ≠ .Ready := by
      rw [hstop.draining t _ hf trivial]
      simp
    have hfr := hfresh (Or.inr (Or.inr ⟨t, _, hf, trivial⟩))
    have hlen := hP k hf hk
    have hall := hfr.allStored hrun hstate hlen
    refine JoinOk.drain hstop hf trivial rfl rfl ⟨hkept rfl rfl rfl hall, hlen, Nat.zero_le _, ?_⟩
    intro w
    rw [if_neg (Nat.not_lt_zero w)]
    exact hfr.joins w
  | @join k last w hk hw ht hexited =>
    obtain ⟨hall, hlast, hle, hjoined⟩ := hach
    obtain rfl : w = k := by
      rw [hall.threads, List.getElem?_range (hlast ▸ hk)] at hw
      simpa using hw.symm
    refine JoinOk.drain hstop hf trivial rfl rfl ⟨hkept rfl rfl rfl hall, hlast, hk, fun v => ?_⟩
    show Function.update s.joins w (s.joins w + 1) v = _
    rcases eq_or_ne v w with rfl | hv
    · simp [hjoined v]
    · rw [Function.update_of_ne hv, hjoined v]
      have hiff : v < w ↔ v < w + 1 := by omega
      simp only [hiff]
  | @joined k last hk =>
    obtain ⟨hall, hlast, hle, hjoined⟩ := hach
    have hk' : k = cfg.nThreads := by omega
    exact JoinOk.drain hstop hf trivial rfl rfl ⟨hkept rfl rfl rfl hall, hk' ▸ hjoined⟩
  | clear => exact JoinOk.drain hstop hf trivial rfl rfl ⟨hach.1.created, hach.2⟩
  | lock => exact JoinOk.drain hstop hf trivial rfl rfl hach
  | publish | keep | swap | unlock | notify | resume | reenter | relock | reaccept | rerefuse
  | repush | reunlock =>
    refine JoinOk.move hstop hf rfl trivial (fun qc hq => ?_) fun _ => hach
    cases hq
    exact hach
  | done => exact JoinOk.move hstop hf rfl trivial (fun qc hq => by cases hq) fun _ => hach

theorem JoinOk.step (h : s.JoinOk) (hrun : s.RunOk) (hstop : s.StopOk)
    (hfresh : s.Early → s.Fresh) (hP : s.RangeComplete a) (hs : LifeStep s a s') : s'.JoinOk := by
  cases hs with
  | same hsame =>
    refine ⟨fun u qc hu => ?_, fun hst => ?_⟩
    · refine (h.stop u qc ((hsame.stop u qc).mp hu)).of_same (fun hall => ?_) ?_ hsame.joins
      · exact hall.of_same hsame.threads hsame.created fun u qc _ => hsame.run u qc
      · exact fun hc => hsame.created.trans hc
    · refine (h.stopped (hsame.state ▸ hst)).of_same ?_ hsame.joins
      exact fun hc => hsame.created.trans hc
  | @callRun t hidle =>
    refine ⟨fun u qc hu => ?_, h.stopped⟩
    have hu := frame_of_update_frame hu (by simp)
    refine (h.stop u qc hu).of_same (fun hall => ?_) id rfl
    refine hall.of_same rfl rfl (won_run_iff rfl (fun qc hq => ?_) fun qc hq => ?_)
    · rw [hidle] at hq
      cases hq
    · cases hq
      simp
  | @callStop t _ _ hidle hframe hstate hthreads hcreated hjoins =>
    have hc : s.created = cfg.nThreads → s'.created = cfg.nThreads := hcreated.trans
    refine ⟨fun u qc hu => ?_, fun hst => (h.stopped (hstate ▸ hst)).of_same hc hjoins⟩
    rw [hframe, update_frame_iff] at hu
    rcases hu with ⟨-, heq⟩ | ⟨-, hu⟩
    · cases heq
      trivial
    · refine (h.stop u qc hu).of_same (fun hall => ?_) hc hjoins
      refine hall.of_same hthreads hcreated (won_run_iff hframe (fun qc hq => ?_) fun qc hq => ?_)
      · rw [hidle] at hq
        cases hq
      · cases hq
  | runWhile hf hstep =>
    have hc := hrun.created_runStep hf hstep
    have hjoins : s'.joins = s.joins := by cases hstep <;> rfl
    refine ⟨fun u qc hu => ?_, fun hst => ?_⟩
    · have hu' : s.frame u = some (.stop qc) := by
        cases hstep <;> exact frame_of_update_frame hu (by simp)
      exact (h.stop u qc hu').of_same (fun hall => hall.runStep hrun hf hstep) hc hjoins
    · have hst' : s.state = .Stopped := by
        cases hstep with
        | win => cases hst
        | lock | lose | unlock | giveUp | spawn | store | done => exact hst
      exact (h.stopped hst').of_same hc hjoins
  | stop hf hstep => exact h.stopStep hrun hstop hfresh hP hf hstep

theorem joinOk_of_reachable (h : (contextSystem cfg τ).ReachableUnder RangeComplete s) :
    s.JoinOk := by
  refine h.invariant ?_ fun _ _ _ hr hI hP hs => hI.step (runOk_of_reachable hr.reachable)
    (stopOk_of_reachable hr.reachable) (fresh_of_early hr.reachable) hP
    (lifeStep_of_step (step_spec hs).2)
  rintro _ rfl
  exact ⟨fun _ _ hf => (by cases hf), fun hst => (by cases hst)⟩

/-! ### No worker outlives the context -/

theorem exited_of_joined (h : (contextSystem cfg τ).Reachable s) {w : ℕ} (hw : 0 < s.joins w) :
    s.worker w = .exited := by
  have hinv : ∀ w, 0 < s.joins w → s.worker w = .exited := by
    refine h.invariant (I := fun u => ∀ w, 0 < u.joins w → u.worker w = .exited) ?_
      fun u a u' _ hI _ hs v hv => ?_
    · rintro _ rfl v hv
      cases hv
    · have hstep := (step_spec hs).2
      -- only a step of `stop` joins
      have hcases : u'.joins = u.joins ∨ u.worker v = .exited := by
        cases lifeStep_of_step hstep with
        | same hsame => exact Or.inl hsame.joins
        | callRun => exact Or.inl rfl
        | callStop _ _ _ _ _ hjoins => exact Or.inl hjoins
        | runWhile _ hrun => exact Or.inl (by cases hrun <;> rfl)
        | stop _ hstop =>
          cases hstop with
          | @join k last x _ _ _ hexited =>
            rcases eq_or_ne v x with rfl | hvx
            · exact Or.inr hexited
            · refine Or.inr (hI v ?_)
              have hv' : 0 < Function.update u.joins x (u.joins x + 1) v := hv
              rwa [Function.update_of_ne hvx] at hv'
          | _ => exact Or.inl rfl
      rcases hcases with hjoins | hexited
      · exact exited_of_step hstep (hI v (hjoins ▸ hv))
      · exact exited_of_step hstep hexited
  exact hinv w hw

/-- Nothing happens to the threads once the state is `Stopped` and all have been created. -/
theorem created_of_leads (h : (contextSystem cfg τ).Reachable s)
    (hall : s.created = cfg.nThreads) (hl : (contextSystem cfg τ).Leads (fun _ _ => True) s s') :
    s'.created = cfg.nThreads := by
  have hinv : s'.RunOk ∧ s'.created = cfg.nThreads := by
    refine hl.invariant (I := fun u => u.RunOk ∧ u.created = cfg.nThreads)
      ⟨runOk_of_reachable h, hall⟩ fun u a u' hI _ hs => ?_
    have hstep := lifeStep_of_step (step_spec hs).2
    refine ⟨hI.1.step hstep, ?_⟩
    cases hstep with
    | same hsame => exact hsame.created.trans hI.2
    | callRun => exact hI.2
    | callStop _ _ _ _ hcreated => exact hcreated.trans hI.2
    | runWhile hf hrun => exact hI.1.created_runStep hf hrun hI.2
    | stop _ hstop => cases hstop <;> exact hI.2
  exact hinv.2

/-- **No worker outlives `Stopped`** in a run in which all threads are in `threads_` when `stop`
reads its range: as soon as the state is `Stopped`, all threads that `run_while` ever creates have
been created and joined exactly once, and have left their loop. -/
theorem all_joined_at_stopped (h : (contextSystem cfg τ).ReachableUnder RangeComplete s)
    (hst : s.state = .Stopped) :
    s.created = cfg.nThreads ∧ (∀ w < cfg.nThreads, s.joins w = 1 ∧ s.worker w = .exited) ∧
      ∀ s', (contextSystem cfg τ).Leads (fun _ _ => True) s s' → s'.created = cfg.nThreads := by
  obtain ⟨hcreated, hjoined⟩ := (joinOk_of_reachable h).stopped hst
  refine ⟨hcreated, fun w hw => ?_, fun s' hl => created_of_leads h.reachable hcreated hl⟩
  have hone : s.joins w = 1 := by rw [hjoined w, if_pos hw]
  exact ⟨hone, exited_of_joined h.reachable (by omega)⟩

/-- When `stop` is called after `run_while` has returned, its range is complete. -/
theorem rangeComplete_of_stopsAfterRun
    (h : (contextSystem cfg τ).ReachableUnder StopsAfterRun s) :
    (contextSystem cfg τ).ReachableUnder RangeComplete s := by
  refine h.strengthen (I := fun u => (contextSystem cfg τ).ReachableUnder StopsAfterRun u)
    (fun _ hu => hu) fun u a hu _ => ?_
  cases a with
  | api t answer =>
    intro k hf _
    have hret := returned_of_stop hu hf
    have hfresh := fresh_of_early hu.reachable (Or.inr (Or.inr ⟨t, _, hf, trivial⟩))
    have hcreated := (runOk_of_reachable hu.reachable).created_of_returned hret
    rw [hfresh.filled hret.2, List.length_range, hcreated]
  | call | work => trivial

/-- Once the state is `Stopped` every worker has left its loop. -/
theorem exited_of_stopped (h : (contextSystem cfg τ).ReachableUnder RangeComplete s)
    (hst : s.state = .Stopped) {w : ℕ} (hw : w < cfg.nThreads) : s.worker w = .exited := by
  have hone : s.joins w = 1 := by rw [((joinOk_of_reachable h).stopped hst).2 w, if_pos hw]
  exact exited_of_joined h.reachable (by omega)

/-- Once the state is `Stopped` no worker is in its loop. -/
theorem worker_of_stopped (h : (contextSystem cfg τ).ReachableUnder RangeComplete s)
    (hst : s.state = .Stopped) (w : ℕ) :
    (w < cfg.nThreads ∧ s.worker w = .exited) ∨ s.worker w = .top := by
  obtain ⟨hcreated, hjoined⟩ := (joinOk_of_reachable h).stopped hst
  rcases Nat.lt_or_ge w cfg.nThreads with hw | hw
  · have hone : s.joins w = 1 := by rw [hjoined w, if_pos hw]
    exact Or.inl ⟨hw, exited_of_joined h.reachable (by omega)⟩
  · exact Or.inr (worker_of_not_created h.reachable (by omega))

/-- One thread, one queue. -/
def oneThread : Config := ⟨1, 1, by decide, by decide, by decide⟩

/-- A step of a member function in which nothing fails. -/
def go (t : Tid τ) : Act τ := .api t ⟨.free, false, false, false⟩

/-- A step of worker `0`, whose queues report `SHUTDOWN`. -/
def turn (predicate : Bool) : Act τ := .work 0 ⟨predicate, .shutdown, true, false, .finished⟩

/-- A client runs the context with one thread. -/
def runCalls : List (Act Unit) :=
  .call (.client ()) .runWhile :: List.replicate 6 (go (.client ()))

/-- The client stops the context, and its worker leaves its loop. -/
def stopCalls : List (Act Unit) :=
  .call (.client ()) .stop :: List.replicate 4 (go (.client ())) ++
    List.replicate 10 (turn false) ++ List.replicate 5 (go (.client ()))

/-- Every `stop` that halts queues finds all threads in `threads_`. -/
def haltsComplete (s : State cfg τ) : Act τ → Bool
  | .api t _ =>
      match s.frame t with
      | some (.stop (.halting _)) => s.threads.length = cfg.nThreads
      | _ => true
  | _ => true

omit [DecidableEq τ] in
theorem rangeComplete_of_haltsComplete (s : State cfg τ) (a : Act τ)
    (h : s.haltsComplete a = true) : s.RangeComplete a := by
  cases a with
  | api t answer =>
    intro k hf _
    simpa [haltsComplete, hf] using h
  | call | work => trivial

theorem all_joined_at_stopped_stopCalls : ∃ s : State oneThread Unit,
    s.state = .Stopped ∧ s.created = 1 ∧ (∀ w < 1, s.joins w = 1 ∧ s.worker w = .exited) ∧
      ∀ s', (contextSystem oneThread Unit).Leads (fun _ _ => True) s s' → s'.created = 1 := by
  let s := ((contextSystem oneThread Unit).execWhile haltsComplete .initial
    (runCalls ++ stopCalls)).get (by decide)
  have hs : (contextSystem oneThread Unit).ReachableUnder RangeComplete s :=
    System.ReachableUnder.execWhile rangeComplete_of_haltsComplete (.init rfl)
      (Option.some_get _).symm
  have hst : s.state = .Stopped := by decide
  exact ⟨s, hst, all_joined_at_stopped hs hst⟩

/-- One client runs the context with one thread, another one stops it before the thread has been
created. -/
def lateThreadCalls : List (Act Bool) :=
  .call (.client false) .runWhile :: List.replicate 3 (go (.client false)) ++
    .call (.client true) .stop :: List.replicate 8 (go (.client true))

/-- The context is `Stopped` and its worker is created afterwards. -/
theorem exists_worker_outlives_stopped : ¬ ∀ (cfg : Config) (s : State cfg Bool),
    (contextSystem cfg Bool).ReachableUnder (fun s a => s.OneRun a ∧ s.ClientStops a) s →
    s.state = .Stopped → s.created = cfg.nThreads ∧ (∀ w < cfg.nThreads, s.joins w = 1) ∧
      ∀ s', (contextSystem cfg Bool).Leads (fun _ _ => True) s s' → s'.created = s.created := by
  intro hall
  let S := contextSystem oneThread Bool
  -- after the first call no `run_while` is called, and no worker ever moves
  let test : State oneThread Bool → Act Bool → Bool := fun _ a =>
    match a with
    | .api _ _ => true
    | .call (.client _) c => decide (c = .stop)
    | _ => false
  let s₁ := (S.step .initial (.call (.client false) .runWhile)).get (by decide)
  have hcall : (initial : State oneThread Bool).OneRun (.call (.client false) .runWhile) :=
    ⟨rfl, fun _ _ h => by cases h⟩
  have hs₁ : S.ReachableUnder (fun s a => s.OneRun a ∧ s.ClientStops a) s₁ :=
    .step (.init rfl) ⟨hcall, fun _ h => by cases h⟩ (Option.some_get _).symm
  let s := (S.execWhile test s₁ lateThreadCalls.tail).get (by decide)
  have hs : S.ReachableUnder (fun s a => s.OneRun a ∧ s.ClientStops a) s := by
    refine System.ReachableUnder.execWhile (fun u a ha => ?_) hs₁ (Option.some_get _).symm
    rcases a with ⟨⟨t⟩ | w, c⟩ | ⟨t, answer⟩ | ⟨w, answer⟩
    · cases c with
      | stop => exact ⟨trivial, fun _ h => by cases h⟩
      | _ => cases ha
    · cases ha
    · exact ⟨trivial, fun _ h => by cases h⟩
    · cases ha
  have hnone := (hall oneThread s hs (by decide)).1
  exact absurd hnone (by decide)

/-! ### A worker that stops the context -/

/-- No worker makes the change to `ShuttingDown`: when one gets to it, the state is no longer
`Running`. -/
def NoWorkerWins (s : State cfg τ) : Act τ → Prop
  | .api (.worker w) _ => s.frame (.worker w) = some (.stop .setting) → s.state ≠ .Running
  | _ => True

theorem no_worker_won (h : (contextSystem cfg τ).ReachableUnder NoWorkerWins s) {w : ℕ}
    {pc : StopPc} (hf : s.frame (.worker w) = some (.stop pc)) : ¬ pc.Won := by
  have hinv : ∀ w pc, s.frame (.worker w) = some (.stop pc) → ¬ pc.Won := by
    refine h.invariant (I := fun u => ∀ w pc, u.frame (.worker w) = some (.stop pc) → ¬ pc.Won) ?_
      fun u a u' _ hI hP hs v qc hv => ?_
    · rintro _ rfl _ _ hf
      cases hf
    · -- a thread other than the worker moves
      have hother : ∀ {t f}, u'.frame = Function.update u.frame t f →
          (∀ rc : StopPc, t = .worker v → f = some (.stop rc) → ¬ rc.Won) → ¬ qc.Won := by
        intro t f hframe hnew
        rw [hframe, update_frame_iff] at hv
        rcases hv with ⟨ht, hf⟩ | ⟨-, hv⟩
        · exact hnew qc ht.symm hf
        · exact hI v qc hv
      cases lifeStep_of_step (step_spec hs).2 with
      | same hsame => exact hI v qc ((hsame.stop _ qc).mp hv)
      | callRun => exact hother rfl fun _ _ hf => by cases hf
      | callStop _ hframe =>
        refine hother hframe fun rc _ hf => ?_
        cases hf
        exact id
      | runWhile _ hrun => cases hrun <;> exact hother rfl fun _ _ hf => by cases hf
      | @stop t pc _ _ hf hstop =>
        have hpc : ∀ rc : StopPc, t = .worker v → pc.Won → ¬ rc.Won := by
          rintro rc rfl hwon
          exact absurd hwon (hI v pc hf)
        cases hstop with
        | yield | selfJoin | abort => exact hI v qc hv
        | win hrun =>
          refine hother rfl ?_
          rintro rc rfl -
          exact absurd hrun (hP hf)
        | lose =>
          refine hother rfl fun _ _ hf => ?_
          cases hf
          exact id
        | giveUp => exact hother rfl fun _ _ hf => by cases hf
        | proceed | halt | range | join | joined | clear | lock | publish | keep | swap | unlock
        | done | notify
        | resume | reenter | relock | reaccept | rerefuse | repush | reunlock =>
          exact hother rfl fun rc ht _ => hpc rc ht trivial
  exact hinv w pc hf

/-- The thread is in `stop`, and the thread it joins next is itself. -/
def AtSelfJoin (s : State cfg τ) (t : Tid τ) : Prop :=
  ∃ k last w, s.frame t = some (.stop (.joining k last)) ∧ k < last ∧ s.threads[k]? = some w ∧
    t = .worker w

/-- **No thread joins itself** in a run in which no worker makes the change to
`ShuttingDown`. -/
theorem no_self_join (h : (contextSystem cfg τ).ReachableUnder NoWorkerWins s) (t : Tid τ) :
    ¬ s.AtSelfJoin t := by
  rintro ⟨k, last, w, hf, -, -, rfl⟩
  exact no_worker_won h hf trivial

/-- The client makes the change to `ShuttingDown`, and the predicate of the worker returns `true`
afterwards. -/
def lateStopCalls : List (Act Unit) :=
  [.call (.client ()) .stop, go (.client ()), turn true, go (.worker 0)]

/-- The `stop` of the worker returns, it leaves its loop, and the client joins it. -/
def lateStopRest : List (Act Unit) :=
  go (.worker 0) :: List.replicate 3 (go (.client ())) ++ List.replicate 10 (turn false) ++
    List.replicate 5 (go (.client ()))

theorem no_self_join_lateStopCalls : ∃ s s' : State oneThread Unit,
    s.frame (.worker 0) = some (.stop .lost) ∧ (∀ t, ¬ s.AtSelfJoin t) ∧
      (contextSystem oneThread Unit).Leads NoWorkerWins s s' ∧ s'.state = .Stopped ∧
      ∀ t, ¬ s'.AtSelfJoin t := by
  let S := contextSystem oneThread Unit
  let test : State oneThread Unit → Act Unit → Bool := fun u a =>
    match a with
    | .api (.worker _) _ => decide (u.state ≠ .Running)
    | _ => true
  have htest : ∀ u a, test u a = true → u.NoWorkerWins a := fun u a ha => by
    rcases a with c | ⟨_ | w, answer⟩ | v
    · trivial
    · trivial
    · exact fun _ => of_decide_eq_true ha
    · trivial
  let s := (S.execWhile test .initial (runCalls ++ lateStopCalls)).get (by decide)
  have hs : S.ReachableUnder NoWorkerWins s :=
    System.ReachableUnder.execWhile htest (.init rfl) (Option.some_get _).symm
  let s' := (S.execWhile test s lateStopRest).get (by decide)
  have hl : S.Leads NoWorkerWins s s' :=
    System.leads_of_execWhile htest (Option.some_get _).symm
  exact ⟨s, s', by decide, no_self_join hs, hl, by decide, no_self_join (hs.leads hl)⟩

/-- A worker that has made the change to `ShuttingDown` and not got past itself. -/
structure Stuck (s : State cfg τ) (w : ℕ) : Prop where
  run : s.RunOk
  stop : s.StopOk
  stored : s.AllStored
  at_or_before : ∃ pc, s.frame (.worker w) = some (.stop pc) ∧
    (pc.Halting ∨ ∃ k ≤ w, pc = .joining k cfg.nThreads)

omit [DecidableEq τ] in
theorem Stuck.state (h : s.Stuck w) : s.state = .ShuttingDown := by
  obtain ⟨pc, hf, hpc | ⟨k, -, rfl⟩⟩ := h.at_or_before
  · refine h.stop.draining _ pc hf ?_
    cases pc <;> first | exact hpc | trivial
  · exact h.stop.draining _ _ hf trivial

/-- The own step of a worker that is stuck. -/
theorem Stuck.stopStep (h : s.Stuck w) (hw : w < cfg.nThreads) {pc : StopPc}
    (hf : s.frame (.worker w) = some (.stop pc)) (hs : StopStep s (.worker w) pc s') :
    s'.AllStored ∧ ∃ pc', s'.frame (.worker w) = some (.stop pc') ∧
      (pc'.Halting ∨ ∃ k ≤ w, pc' = .joining k cfg.nThreads) := by
  have hold : ∀ qc, s.frame (.worker w) = some (.runWhile qc) → ¬ qc.Won := fun qc hq => by
    rw [hf] at hq
    cases hq
  have hlen : s.threads.length = cfg.nThreads := by rw [h.stored.threads, List.length_range]
  obtain ⟨pc₀, hf₀, hpc⟩ := h.at_or_before
  obtain rfl : pc₀ = pc := by simpa using hf₀.symm.trans hf
  cases hs with
  | yield => exact ⟨h.stored, h.at_or_before⟩
  | selfJoin =>
    exact ⟨h.stored.of_same rfl rfl fun _ _ _ => Iff.rfl, h.at_or_before⟩
  | proceed | halt =>
    refine ⟨?_, _, Function.update_self .., Or.inl trivial⟩
    exact h.stored.of_same rfl rfl (won_run_iff rfl hold fun _ hq => by cases hq)
  | range =>
    refine ⟨?_, _, Function.update_self .., Or.inr ⟨0, Nat.zero_le w, by rw [hlen]⟩⟩
    exact h.stored.of_same rfl rfl (won_run_iff rfl hold fun _ hq => by cases hq)
  | @join k last x hk hx hne =>
    obtain hpc | ⟨k', hk', heq⟩ := hpc
    · exact absurd hpc id
    · cases heq
      rw [h.stored.threads, List.getElem?_range hk] at hx
      cases hx
      have hne' : k ≠ w := fun heq => hne (by rw [heq])
      refine ⟨?_, _, Function.update_self .., Or.inr ⟨k + 1, by omega, rfl⟩⟩
      exact h.stored.of_same rfl rfl (won_run_iff rfl hold fun _ hq => by cases hq)
  | @joined k last hk =>
    obtain hpc | ⟨k', hk', heq⟩ := hpc
    · exact absurd hpc id
    · -- `k ≤ w < nThreads`, so the loop is not over
      cases heq
      omega
  | win | lose | giveUp | clear | abort | lock | publish | keep | swap | unlock | done | notify
  | resume | reenter | relock | reaccept | rerefuse | repush | reunlock =>
    obtain hpc | ⟨k, -, heq⟩ := hpc
    · exact absurd hpc id
    · cases heq

theorem Stuck.step (h : s.Stuck w) (hw : w < cfg.nThreads) (hs : LifeStep s a s') :
    s'.Stuck w := by
  have hrun := h.run.step hs
  have hstop := h.stop.step hs
  -- steps of others leave the worker where it is
  have hat : ∀ {t f}, s'.frame = Function.update s.frame t f → t ≠ .worker w →
      ∃ pc, s'.frame (.worker w) = some (.stop pc) ∧
        (pc.Halting ∨ ∃ k ≤ w, pc = .joining k cfg.nThreads) := by
    intro t f hframe ht
    obtain ⟨pc, hf, hpc⟩ := h.at_or_before
    exact ⟨pc, by rw [hframe, Function.update_of_ne ht.symm, hf], hpc⟩
  have hne : ∀ {t f}, s.frame t = f → (∀ pc, f ≠ some (.stop pc)) → t ≠ .worker w := by
    rintro t f hf hnot rfl
    obtain ⟨pc, hf', -⟩ := h.at_or_before
    exact hnot pc (hf.symm.trans hf')
  cases hs with
  | same hsame =>
    obtain ⟨pc, hf, hpc⟩ := h.at_or_before
    refine ⟨hrun, hstop, ?_, pc, (hsame.stop _ pc).mpr hf, hpc⟩
    exact h.stored.of_same hsame.threads hsame.created fun u qc _ => hsame.run u qc
  | @callRun t hidle =>
    refine ⟨hrun, hstop, ?_, hat rfl (hne hidle (by simp))⟩
    refine h.stored.of_same rfl rfl (won_run_iff rfl (fun qc hq => ?_) fun qc hq => ?_)
    · rw [hidle] at hq
      cases hq
    · cases hq
      simp
  | @callStop t _ _ hidle hframe hstate hthreads hcreated =>
    refine ⟨hrun, hstop, ?_, hat hframe (hne hidle (by simp))⟩
    refine h.stored.of_same hthreads hcreated (won_run_iff hframe (fun qc hq => ?_) fun qc hq => ?_)
    · rw [hidle] at hq
      cases hq
    · cases hq
  | @runWhile t pc _ _ hf hstep =>
    refine ⟨hrun, hstop, h.stored.runStep h.run hf hstep, ?_⟩
    have ht : t ≠ .worker w := hne hf (by simp)
    cases hstep <;> exact hat rfl ht
  | @stop t pc _ _ hf hstep =>
    by_cases ht : t = .worker w
    · subst ht
      obtain ⟨hstored, hpc⟩ := h.stopStep hw hf hstep
      exact ⟨hrun, hstop, hstored, hpc⟩
    · -- another `stop` has not won
      have hnot : ¬ pc.Won := by
        intro hwon
        obtain ⟨qc, hq, hqc⟩ := h.at_or_before
        refine ht (h.stop.unique t _ pc qc hf hq hwon ?_)
        obtain hqc | ⟨k, -, rfl⟩ := hqc
        · exact hqc.draining.won
        · trivial
      have hold : ∀ qc, s.frame t = some (.runWhile qc) → ¬ qc.Won := fun qc hq => by
        rw [hf] at hq
        cases hq
      rcases StopPc.not_won_iff.mp hnot with rfl | rfl
      · cases hstep with
        | win hstate => exact absurd (h.state.symm.trans hstate) (by simp)
        | lose =>
          refine ⟨hrun, hstop, ?_, hat rfl ht⟩
          exact h.stored.of_same rfl rfl (won_run_iff rfl hold fun _ hq => by cases hq)
      · cases hstep with
        | giveUp =>
          refine ⟨hrun, hstop, ?_, hat rfl ht⟩
          exact h.stored.of_same rfl rfl (won_run_iff rfl hold fun _ hq => by cases hq)

/-- When a worker has made the change to `ShuttingDown` after `run_while` has returned, the state
never becomes `Stopped`: its `stop` does not get past the join of the thread it runs on. -/
theorem worker_never_stops (h : (contextSystem cfg τ).Reachable s) (hret : s.RunReturned)
    {pc : StopPc} (hw : w < cfg.nThreads) (hf : s.frame (.worker w) = some (.stop pc))
    (hpc : pc.Halting) (hl : (contextSystem cfg τ).Leads (fun _ _ => True) s s') :
    s'.state = .ShuttingDown := by
  have hrun := runOk_of_reachable h
  have hfresh := fresh_of_early h (Or.inr (Or.inr ⟨_, pc, hf, hpc⟩))
  have hcreated := hrun.created_of_returned hret
  have hstored : s.AllStored := by
    refine ⟨?_, hcreated, fun t qc hq hwon => absurd hwon (hret.2 t qc hq)⟩
    rw [hfresh.filled hret.2, hcreated]
  have hstuck : s'.Stuck w := by
    refine hl.invariant (I := fun u => u.Stuck w)
      ⟨hrun, stopOk_of_reachable h, hstored, pc, hf, Or.inl hpc⟩
      fun u a u' hI _ hs => hI.step hw (lifeStep_of_step (step_spec hs).2)
  exact hstuck.state

/-- The action does not call `stop`. -/
def callsNoStop (s : State cfg τ) (a : Act τ) : Bool := s.stopCaller a = none

omit [DecidableEq τ] in
theorem stopsAfterRun_of_callsNoStop (s : State cfg τ) (a : Act τ) (h : s.callsNoStop a = true) :
    s.StopsAfterRun a := by
  intro t ht
  simp [callsNoStop, ht] at h

/-- The context runs, the predicate returns `true`, and the only worker stops the context. -/
def workerStopCalls : List (Act Unit) :=
  turn true :: List.replicate 4 (go (.worker 0))

/-- The worker makes the change to `ShuttingDown` and gets to the join of itself. -/
theorem exists_self_join : ¬ ∀ (cfg : Config) (s : State cfg Unit) (t : Tid Unit),
    (contextSystem cfg Unit).ReachableUnder StopsAfterRun s → ¬ s.AtSelfJoin t := by
  intro hall
  let S := contextSystem oneThread Unit
  let s₁ := (S.execWhile callsNoStop .initial runCalls).get (by decide)
  have hs₁ : S.ReachableUnder StopsAfterRun s₁ :=
    System.ReachableUnder.execWhile stopsAfterRun_of_callsNoStop (.init rfl)
      (Option.some_get _).symm
  -- `run_while` has returned when the worker calls `stop`
  have hidle : ∀ t, s₁.frame t = none := by
    rintro (⟨⟩ | w) <;> rfl
  have hret : s₁.RunReturned := by
    refine ⟨by decide, fun t pc hf => ?_⟩
    rw [hidle t] at hf
    cases hf
  let s₂ := (S.step s₁ (turn true)).get (by decide)
  have hs₂ : S.ReachableUnder StopsAfterRun s₂ :=
    hs₁.step (fun _ _ => hret) (Option.some_get _).symm
  let s₃ := (S.execWhile callsNoStop s₂ workerStopCalls.tail).get (by decide)
  have hs₃ : S.ReachableUnder StopsAfterRun s₃ :=
    System.ReachableUnder.execWhile stopsAfterRun_of_callsNoStop hs₂ (Option.some_get _).symm
  exact hall oneThread s₃ (.worker 0) hs₃ ⟨0, 1, 0, by decide, by decide, by decide, rfl⟩

end State

end Sgrpc
