import Sgrpc.Context.Exit

/-!
# A shutdown can be completed

From every state of a context that is being shut down, in a run in which the handshakes hold, the
threads can be scheduled so that the state `Stopped` is reached (`shutdown_completes`): no
interleaving of the calls and the workers leads to a deadlock, nor to a state in which the winning
`stop` waits for something that cannot come. It waits for the calls that post events, halts the
queues, and joins the workers one after the other.

As long as `in_push_` does not wrap, a context that runs can be stopped if and only if no call of
`post` or `push` has been left by an exception (`can_stop_iff`).
-/

namespace Sgrpc

open Interleaving

/-- This worker has seen that `in_push_` is zero. -/
def WorkerPc.Swept : WorkerPc → Prop
  | .draining (.returned _) | .executing _ | .exited => True
  | _ => False

/-- This `stop` has not got past the wait for `within_cq_post_ == 0`. -/
def StopPc.Waits : StopPc → Prop
  | .setting | .lost | .waiting => True
  | _ => False

namespace State

variable {cfg : Config} {τ : Type*} [DecidableEq τ] {s s' : State cfg τ} {a : Act τ}
  {t u : Tid τ} {w : ℕ}

/-! ### The winning `stop` -/

namespace Down

variable {k last : ℕ}

/-- A worker that is joined leaves its loop. -/
theorem exit (h : s.Down t (.joining k last)) (hn : 0 < cfg.nTaskQueues) (hw : w < cfg.nThreads) :
    (contextSystem cfg τ).MayReach Gentle s fun s' =>
      s'.Down t (.joining k last) ∧ s'.worker w = .exited := by
  -- the calls of `push` return, then whoever holds `padlock_`, then the worker
  obtain ⟨m, hm, -⟩ := h.leaks.inPush
  refine (leave hn InPush id (fun _ => id) (fun f hf hat => ?_) h hm).bind fun x _ hx => ?_
  · cases f with
    | push => exact hat
    | post | runWhile | stop | attach | notify | work => exact hf
  obtain ⟨hdown, hpush, -⟩ := hx
  refine (hdown.free hn id).bind fun y _ hy => ?_
  obtain ⟨hdown, hfree, heases⟩ := hy
  have hpush' : ∀ u, ¬ InPush (y.frame u) := by
    intro u
    rcases heases.frame u with heq | hnone
    · rw [heq]
      exact hpush u
    · rw [hnone]
      exact id
  refine (hdown.finish hn (hdown.ne_worker w).symm fun _ _ _ => hfree).bind fun z _ hz => ?_
  obtain ⟨hdown, hidle, hframe, -⟩ := hz
  have halone : z.Alone t k last w := by
    refine ⟨hdown, fun u hu => ?_, Or.inl hidle⟩
    rw [hframe u hu]
    exact hpush' u
  refine System.MayReach.of_measure (I := fun x => x.Alone t k last w) (fun x => x.toExit w)
    (fun x hx => ?_) halone
  by_cases hexited : x.worker w = .exited
  · exact .now (Or.inl ⟨hx.down, hexited⟩)
  · have hcreated : x.created = cfg.nThreads :=
      (runOk_of_reachable hx.down.run.reachable).created_of_returned hx.down.returned
    obtain ⟨a, x', ha, hfits, hs, halone', hlt⟩ := hx.progress hn (hcreated ▸ hw) hexited
    exact .step ⟨hx.down.smooth ha, hfits⟩ hs (.now (Or.inr ⟨halone', hlt⟩))

theorem step_go {pc : StopPc} (h : s.Down t pc) : s.step (go t) = s.stopStep t false pc := by
  simp [step, go, h.terminated, apiStep, h.frame]

/-- The thread takes a step of `stop`, to `pc'`. -/
theorem go_on {pc pc' : StopPc} (h : s.Down t pc) (hs : s.step (go t) = some s')
    (hframe : s'.frame = Function.update s.frame t (some (.stop pc'))) (hpc' : pc'.Draining)
    {G : State cfg τ → Prop} (hrest : s'.Down t pc' → (contextSystem cfg τ).MayReach Gentle s' G) :
    (contextSystem cfg τ).MayReach Gentle s G := by
  refine .step (h.gentle_go t) hs (hrest (h.advance hs ?_ hpc'))
  rw [hframe, Function.update_self]

/-- The context can be stopped. -/
abbrev Stops (s : State cfg τ) : Prop :=
  (contextSystem cfg τ).MayReach Gentle s fun s' => s'.state = .Stopped

theorem joinOk {pc : StopPc} (h : s.Down t pc) : s.JoinOk :=
  joinOk_of_reachable (rangeComplete_of_stopsAfterRun (h.run.mono fun _ _ hP => hP.1))

theorem stops_of_publishing (h : s.Down t .publishing) : Stops s := by
  have hgo := h.step_go
  simp only [stopStep, h.state, ExecutionState.setState, if_true] at hgo
  exact .step (h.gentle_go t) hgo (.now rfl)

theorem stops_of_locking (h : s.Down t .locking) (hn : 0 < cfg.nTaskQueues) : Stops s := by
  refine (h.free hn id).bind fun x _ hx => ?_
  obtain ⟨hdown, hfree, -⟩ := hx
  have hgo := hdown.step_go
  simp only [stopStep, hfree, Bool.false_eq_true, if_false] at hgo
  exact hdown.go_on hgo rfl trivial stops_of_publishing

theorem stops_of_clearing (h : s.Down t .clearing) (hn : 0 < cfg.nTaskQueues) : Stops s := by
  obtain ⟨hstored, hjoined⟩ := h.joinOk.stop t _ h.frame
  have hall : ∀ w ∈ s.threads, 0 < s.joins w := by
    intro w hw
    rw [hstored.threads, List.mem_range] at hw
    rw [hjoined w, if_pos hw]
    exact Nat.one_pos
  exact h.go_on (h.step_go.trans (if_pos hall)) rfl trivial fun h' => h'.stops_of_locking hn

theorem stops_of_joining (hn : 0 < cfg.nTaskQueues) {d : ℕ} : ∀ {s : State cfg τ} {k : ℕ},
    k + d = last → s.Down t (.joining k last) → Stops s := by
  induction d with
  | zero =>
    rintro s k rfl h
    have hnot : ¬ k < k + 0 := Nat.lt_irrefl k
    exact h.go_on (h.step_go.trans (if_neg hnot)) rfl trivial fun h' => h'.stops_of_clearing hn
  | succ d ih =>
    intro s k hd h
    have hlast : last = cfg.nThreads := (h.joinOk.stop t _ h.frame).2.1
    refine (h.exit hn (w := k) (by omega)).bind fun x _ hx => ?_
    obtain ⟨hdown, hexited⟩ := hx
    have hk : k < last := by omega
    have hthread : x.threads[k]? = some k := by
      rw [(hdown.joinOk.stop t _ hdown.frame).1.threads]
      exact List.getElem?_range (hlast ▸ hk)
    have hgo := hdown.step_go
    simp only [stopStep, if_pos hk, hthread, Option.bind_some, if_neg (hdown.ne_worker k),
      if_pos hexited] at hgo
    exact hdown.go_on hgo rfl trivial (ih (k := k + 1) (by omega))

theorem stops_of_all_halted {k : ℕ} (h : s.Down t (.halting k)) (hn : 0 < cfg.nTaskQueues)
    (hnone : s.allQueues[k]? = none) : Stops s := by
  have hgo := h.step_go
  simp only [stopStep, hnone] at hgo
  exact h.go_on hgo rfl trivial fun h' => stops_of_joining hn (Nat.zero_add _) h'

theorem stops_of_halting (hn : 0 < cfg.nTaskQueues) {d : ℕ} : ∀ {s : State cfg τ} {k : ℕ},
    s.allQueues.length ≤ k + d → s.Down t (.halting k) → Stops s := by
  induction d with
  | zero =>
    intro s k hle h
    exact h.stops_of_all_halted hn (List.getElem?_eq_none_iff.mpr hle)
  | succ d ih =>
    intro s k hle h
    cases hq : s.allQueues[k]? with
    | none => exact h.stops_of_all_halted hn hq
    | some q =>
      have hgo := h.step_go
      simp only [stopStep, hq] at hgo
      refine h.go_on hgo rfl trivial (ih (k := k + 1) ?_)
      show s.allQueues.length ≤ k + 1 + d
      omega

theorem stops_of_waiting (h : s.Down t .waiting) (hn : 0 < cfg.nTaskQueues) : Stops s := by
  obtain ⟨m, hm, -⟩ := h.leaks.within
  refine (leave hn InPost id (fun _ => id) (fun f hf hat => ?_) h hm).bind fun x _ hx => ?_
  · cases f with
    | post => exact hat
    | push | runWhile | stop | attach | notify | work => exact hf
  obtain ⟨hdown, hpost, -⟩ := hx
  have hzero : ¬ 0 < x.withinCqPost := by
    intro hpos
    obtain ⟨u, hu⟩ := (Exceeds.zero_iff.mp hdown.leaks.within).exists_of_pos hpos
    exact hpost u hu
  exact hdown.go_on (hdown.step_go.trans (if_neg hzero)) rfl trivial
    (stops_of_halting hn (Nat.le_add_left ..))

/-- The winner gets to its end from wherever it is. -/
theorem stops {pc : StopPc} (h : s.Down t pc) (hn : 0 < cfg.nTaskQueues) : Stops s := by
  cases pc with
  | waiting => exact h.stops_of_waiting hn
  | halting k => exact stops_of_halting hn (Nat.le_add_left _ k) h
  | joining k last =>
    have hle : k ≤ last := (h.joinOk.stop t _ h.frame).2.2.1
    exact stops_of_joining hn (Nat.add_sub_of_le hle) h
  | clearing => exact h.stops_of_clearing hn
  | locking => exact h.stops_of_locking hn
  | publishing => exact h.stops_of_publishing
  | setting | lost | swapping | unlocking | notifying | inNotification | registering =>
    exact h.draining.elim

end Down

/-- A client that is in no member function calls `stop` while the context runs. -/
theorem down_of_call (h : (contextSystem cfg τ).ReachableUnder Smooth s)
    (hrunning : s.state = .Running) (hret : s.RunReturned) {c : τ}
    (hidle : s.frame (.client c) = none) : (contextSystem cfg τ).MayReach Gentle s fun s' =>
      s'.Down (.client c) .waiting := by
  have hterm := not_terminated h
  have hcall : s.step (.call (.client c) .stop) =
      some (s.setFrame (.client c) (some (.stop .setting))) := by
    simp [step, hterm, MayCall, hidle, begin]
  have hsmooth : s.Smooth (.call (.client c) .stop) := smooth_of_call fun _ _ => hret
  let u := s.setFrame (.client c) (some (.stop .setting))
  have hu : u.frame (.client c) = some (.stop .setting) := Function.update_self ..
  have hgo : u.step (go (.client c)) = u.stopStep (.client c) false .setting := by
    simp [step, go, u, setFrame, hterm, apiStep]
  have hset : u.state.setState .ShuttingDown = some .ShuttingDown :=
    ExecutionState.setState_shuttingDown.mpr ⟨hrunning, rfl⟩
  simp only [stopStep, hset] at hgo
  refine .step ⟨hsmooth, fun hcalls => hcalls.elim⟩ hcall (.step ⟨smooth_of_go, fits_go u _⟩ hgo
    (.now ⟨?_, Function.update_self .., trivial⟩))
  exact (h.step hsmooth hcall).step smooth_of_go hgo

/-- **A shutdown can be completed.** Take a run in which `stop` is called after `run_while` has
returned, no worker makes the change to `ShuttingDown`, and no exception leaves a `post` or a
`push`, or gets to the loop of a worker. From every state of it in which the context is being shut
down, the run can go on so that the state `Stopped` is reached. -/
theorem shutdown_completes (hn : 0 < cfg.nTaskQueues)
    (h : (contextSystem cfg τ).ReachableUnder Smooth s) (hdown : s.state = .ShuttingDown) :
    ∃ s', (contextSystem cfg τ).Leads Smooth s s' ∧ s'.state = .Stopped := by
  obtain ⟨t, pc, hf, hd⟩ := (stopOk_of_reachable h.reachable).down hdown
  obtain ⟨s', hl, hst⟩ := Down.stops ⟨h, hf, hd⟩ hn
  exact ⟨s', hl.mono fun _ _ hP => hP.1, hst⟩

/-- A step that calls no `stop`, of a client in which nothing fails, or of the loop of a worker. -/
def smoothly (s : State cfg τ) : Act τ → Bool
  | .call t c => s.callsNoStop (.call t c)
  | .api (.client _) answer => answer = ⟨.free, false, false, false⟩
  | .api (.worker _) _ => false
  | .work w answer => s.callsNoStop (.work w answer) && !answer.throws

omit [DecidableEq τ] in
theorem smooth_of_smoothly (s : State cfg τ) (a : Act τ) (h : s.smoothly a = true) :
    s.Smooth a := by
  rcases a with ⟨t, c⟩ | ⟨_ | v, answer⟩ | ⟨w, answer⟩
  · exact smooth_of_call (stopsAfterRun_of_callsNoStop s _ h)
  · obtain rfl : answer = ⟨.free, false, false, false⟩ := by simpa [smoothly] using h
    exact smooth_of_go
  · cases h
  · obtain ⟨hstop, hthrows⟩ := Bool.and_eq_true_iff.mp h
    exact smooth_of_work (stopsAfterRun_of_callsNoStop s _ hstop) (by simpa using hthrows)

/-- The worker is in the middle of a pass when the client stops the context, and an event of a
factory is pending. -/
theorem shutdown_completes_postCalls : ∃ s : State oneThread Unit, s.state = .ShuttingDown ∧
    s.worker 0 = startPass oneThread ∧ (s.cq (.own 0)).pending = [.inflightRpc 0] ∧
      ∃ s', (contextSystem oneThread Unit).Leads Smooth s s' ∧ s'.state = .Stopped := by
  let S := contextSystem oneThread Unit
  let s₁ := (S.execWhile smoothly .initial (runCalls ++ postCalls ++ [turn false])).get (by decide)
  have hs₁ : S.ReachableUnder Smooth s₁ :=
    System.ReachableUnder.execWhile smooth_of_smoothly (.init rfl) (Option.some_get _).symm
  have hidle : ∀ t, s₁.frame t = none := by
    rintro (⟨⟩ | w) <;> rfl
  have hret : s₁.RunReturned := by
    refine ⟨by decide, fun t pc hf => ?_⟩
    rw [hidle t] at hf
    cases hf
  let s₂ := (S.step s₁ (.call (.client ()) .stop)).get (by decide)
  have hs₂ : S.ReachableUnder Smooth s₂ :=
    hs₁.step (smooth_of_call fun _ _ => hret) (Option.some_get _).symm
  let s := (S.execWhile smoothly s₂ [go (.client ())]).get (by decide)
  have hs : S.ReachableUnder Smooth s :=
    System.ReachableUnder.execWhile smooth_of_smoothly hs₂ (Option.some_get _).symm
  have hst : s.state = .ShuttingDown := by decide
  exact ⟨s, hst, by decide, by decide, shutdown_completes (by decide) hs hst⟩

/-! ### A context that cannot be stopped -/

/-- While `within_cq_post_` exceeds the number of calls, the winning `stop` waits. -/
theorem not_stopped_of_posts (h : (contextSystem cfg τ).Reachable s)
    (hrunning : s.state = .Running) {n : Thrown} (hleaks : s.Leaks n) (hposts : 0 < n.posts)
    (hl : (contextSystem cfg τ).Leads (fun _ _ => True) s s') : s'.state ≠ .Stopped := by
  have hinv : s'.state ≠ .Stopped ∧ (∀ t pc, s'.frame t = some (.stop pc) → pc.Waits) ∧
      ∃ n, s'.Leaks n ∧ 0 < n.posts := by
    refine hl.invariant (I := fun x => x.state ≠ .Stopped ∧
      (∀ t pc, x.frame t = some (.stop pc) → pc.Waits) ∧ ∃ n, x.Leaks n ∧ 0 < n.posts)
      ⟨by simp [hrunning], fun t pc hf => ?_, n, hleaks, hposts⟩ ?_
    · by_contra hnot
      have hwon : pc.Won := by
        by_contra hlost
        rcases StopPc.not_won_iff.mp hlost with rfl | rfl <;> exact hnot trivial
      have hstop := stopOk_of_reachable h
      by_cases hd : pc.Draining
      · exact absurd ((hstop.draining t pc hf hd).symm.trans hrunning) (by simp)
      · exact absurd ((hstop.published t pc hf hwon hd).symm.trans hrunning) (by simp)
    · rintro x a x' ⟨hstate, hstops, n, hleaks, hposts⟩ - hs
      have hmore : 0 < (recordThrown n x a x').posts := by
        simp only [recordThrown]
        split
        · exact Nat.succ_pos _
        · exact hposts
      suffices hkept : x'.state ≠ .Stopped ∧
          ∀ t pc, x'.frame t = some (.stop pc) → pc.Waits from
        ⟨hkept.1, hkept.2, _, hleaks.step hs, hmore⟩
      cases lifeStep_of_step (step_spec hs).2 with
      | same hsame =>
        exact ⟨hsame.state ▸ hstate, fun t pc hf => hstops t pc ((hsame.stop t pc).mp hf)⟩
      | callRun => exact ⟨hstate, fun t pc hf => hstops t pc (frame_of_update_frame hf (by simp))⟩
      | callStop _ hframe hst =>
        refine ⟨hst ▸ hstate, fun t pc hf => ?_⟩
        rw [hframe, update_frame_iff] at hf
        rcases hf with ⟨-, heq⟩ | ⟨-, hf⟩
        · cases heq
          trivial
        · exact hstops t pc hf
      | runWhile _ hrun =>
        refine ⟨?_, fun t pc hf => hstops t pc ?_⟩
        · cases hrun <;> first | exact hstate | simp
        · cases hrun <;> exact frame_of_update_frame hf (by simp)
      | @stop t pc _ _ hf hstop =>
        have hpc := hstops t pc hf
        -- the thread goes on to where it still waits
        have hstay : ∀ {u : State cfg τ} {f}, u.frame = Function.update x.frame t f →
            (∀ qc, f = some (.stop qc) → qc.Waits) →
            ∀ v qc, u.frame v = some (.stop qc) → qc.Waits := by
          intro u f hframe hnew v qc hv
          rw [hframe, update_frame_iff] at hv
          rcases hv with ⟨-, heq⟩ | ⟨-, hv⟩
          · exact hnew qc heq
          · exact hstops v qc hv
        cases hstop with
        | win => exact ⟨by simp, hstay rfl fun qc heq => by cases heq; trivial⟩
        | lose => exact ⟨hstate, hstay rfl fun qc heq => by cases heq; trivial⟩
        | giveUp => exact ⟨hstate, hstay rfl fun qc heq => by cases heq⟩
        | yield => exact ⟨hstate, hstops⟩
        | proceed hzero =>
          -- the counter exceeds something
          have hle := hleaks.within.le
          omega
        | _ => exact hpc.elim
  exact hinv.1

/-- A step of the loop to where `in_push_` has been seen to be zero. -/
theorem swept_of_loopStep {answer : WorkAnswer} {pc : WorkerPc} (hpc : ¬ pc.Swept)
    (hpos : 0 < s.taskQueue.inPush) (hs : LoopStep s w answer pc s') :
    ∃ pc', s'.worker = Function.update s.worker w pc' ∧ ¬ pc'.Swept := by
  cases hs with
  | complete =>
    obtain ⟨pc', hpc', rfl | ⟨what', rfl⟩⟩ := worker_completeStep s w _ _ _ _ <;>
      exact ⟨_, hpc', id⟩
  | eject heject =>
    cases heject with
    | again => exact ⟨_, rfl, id⟩
    | finish hzero => exact absurd hzero hpos.ne'
    | swap => exact ⟨_, rfl, id⟩
  | run => exact ⟨_, worker_execute, id⟩
  | ejected | executeNext | exit => exact absurd trivial hpc
  | stop | pass | stopped | pollNone | pollShutdown | pollEvent | nextSet | polled | leave | stay
  | popCall | pop | popped | missed | ejectCall => exact ⟨_, rfl, id⟩

/-- No worker leaves its loop while the context runs. -/
theorem not_swept_of_running (h : (contextSystem cfg τ).Reachable s)
    (hrunning : s.state = .Running) (w : ℕ) : ¬ (s.worker w).Swept := by
  intro hswept
  have hexhausted : s.OwnExhausted w cfg.nCqs := by
    have hok := passOk_of_reachable h w
    revert hok hswept
    cases s.worker w with
    | draining | executing | exited => exact fun _ hok => hok
    | top | stopping | polling | completing | checking | popping | running => exact False.elim
  have hhalted := (haltOk_of_reachable h).shut _ (hexhausted 0 cfg.nCqs_pos).1
  exact (stopOk_of_reachable h).not_halted (by simp [hrunning, ExecutionState.canPost_iff]) hhalted

/-- While `in_push_` exceeds the number of calls, and does not wrap, no worker leaves its loop. -/
theorem not_swept_of_pushes (h : (contextSystem cfg τ).Reachable s)
    (hrunning : s.state = .Running) {n : Thrown} (hloses : s.Loses n) (hpushes : 0 < n.pushes)
    (hl : (contextSystem cfg τ).Leads Fits s s') (w : ℕ) : ¬ (s'.worker w).Swept := by
  have hinv : (∀ w, ¬ (s'.worker w).Swept) ∧ ∃ n, s'.Loses n ∧ 0 < n.pushes := by
    refine hl.invariant (I := fun x => (∀ w, ¬ (x.worker w).Swept) ∧ ∃ n, x.Loses n ∧ 0 < n.pushes)
      ⟨not_swept_of_running h hrunning, n, hloses, hpushes⟩ ?_
    rintro x a x' ⟨hswept, n, hloses, hpushes⟩ hfits hs
    have hmore : 0 < (recordThrown n x a x').pushes := by
      simp only [recordThrown]
      split
      · exact Nat.succ_pos _
      · exact hpushes
    refine ⟨fun v => ?_, _, hloses.step hfits hs, hmore⟩
    have hpos : 0 < x.taskQueue.inPush := hpushes.trans_le hloses.inPush.le
    rcases loop_of_step (step_spec hs).2 with hsame | ⟨y, answer, -, -, -, hloop⟩
    · rw [hsame.worker]
      exact hswept v
    · obtain ⟨pc', hpc', hnot⟩ := swept_of_loopStep (hswept y) hpos hloop
      rw [hpc']
      rcases eq_or_ne v y with rfl | hv
      · rwa [Function.update_self]
      · rw [Function.update_of_ne hv]
        exact hswept v
  exact hinv.1 w

/-- **When a context can be stopped.** Take a run in which `stop` is called after `run_while` has
returned, no worker makes the change to `ShuttingDown`, and `in_push_` does not wrap. From a state
of it in which the context runs, `run_while` has returned and a client is in no member function, the
run can go on to the state `Stopped` if and only if `within_cq_post_` and `in_push_` are the numbers
of calls in progress, which they are if and only if no exception has left a `post` or a `push`. -/
theorem can_stop_iff (hn : 0 < cfg.nTaskQueues) {p : State cfg τ × Thrown}
    (h : (thrownSystem cfg τ).ReachableUnder
      (fun p a => p.1.StopsAfterRun a ∧ p.1.NoWorkerWins a ∧ p.1.Fits a) p)
    (hgo : p.1.terminated = false) (hrunning : p.1.state = .Running) (hret : p.1.RunReturned)
    {c : τ} (hidle : p.1.frame (.client c) = none) :
    ((∃ s', (contextSystem cfg τ).Leads
        (fun s a => s.StopsAfterRun a ∧ s.NoWorkerWins a ∧ s.Fits a) p.1 s' ∧
      s'.state = .Stopped) ↔ p.1.CountersOk) ∧
    (p.1.CountersOk ↔ p.2.posts = 0 ∧ p.2.pushes = 0) := by
  have hrun := h.of_observed (Q := fun s a => s.StopsAfterRun a ∧ s.NoWorkerWins a ∧ s.Fits a)
    fun _ _ hP => hP
  have hloses := loses_of_observed (h.mono fun _ _ hP => hP.2.2)
  have hexact := hloses.countersOk_iff
  refine ⟨⟨?_, fun hok => ?_⟩, hexact⟩
  · rintro ⟨s', hl, hst⟩
    refine hexact.mpr ⟨?_, ?_⟩
    · by_contra hne
      exact not_stopped_of_posts hrun.reachable hrunning (leaks_of_reachable h.reachable)
        (Nat.pos_of_ne_zero hne) (hl.mono fun _ _ _ => trivial) hst
    · by_contra hne
      refine not_swept_of_pushes hrun.reachable hrunning hloses (Nat.pos_of_ne_zero hne)
        (hl.mono fun _ _ hP => hP.2.2) 0 ?_
      have hrange := rangeComplete_of_stopsAfterRun ((hrun.leads hl).mono fun _ _ hP => hP.1)
      rw [exited_of_stopped hrange hst cfg.nThreads_pos]
      trivial
  · have hsmooth := smooth_of_countersOk hrun hgo hok
    obtain ⟨s', hl, hst⟩ := (down_of_call hsmooth hrunning hret hidle).bind
      fun x _ hx => hx.stops hn
    exact ⟨s', hl.mono fun _ _ hP => ⟨hP.1.1, hP.1.2.1, hP.2⟩, hst⟩

/-- The client has posted a factory, and stops the context. -/
theorem can_stop_iff_postCalls : ∃ p : State oneThread Unit × Thrown, p.1.state = .Running ∧
    (p.1.cq (.own 0)).pending = [.inflightRpc 0] ∧
      ((∃ s', (contextSystem oneThread Unit).Leads
        (fun s a => s.StopsAfterRun a ∧ s.NoWorkerWins a ∧ s.Fits a) p.1 s' ∧
          s'.state = .Stopped) ↔ p.1.CountersOk) ∧
      (p.1.CountersOk ↔ p.2.posts = 0 ∧ p.2.pushes = 0) := by
  let S := thrownSystem oneThread Unit
  let test (p : State oneThread Unit × Thrown) (a : Act Unit) : Bool :=
    p.1.smoothly a && decide (p.1.taskQueue.inPush + 1 < unsignedSize)
  have htest : ∀ p a, test p a = true →
      p.1.StopsAfterRun a ∧ p.1.NoWorkerWins a ∧ p.1.Fits a := by
    intro p a hpass
    obtain ⟨hsmoothly, hfits⟩ := Bool.and_eq_true_iff.mp hpass
    have hsmooth := smooth_of_smoothly p.1 a hsmoothly
    exact ⟨hsmooth.1, hsmooth.2.1, fun _ => of_decide_eq_true hfits⟩
  let p := (S.execWhile test (.initial, ⟨0, 0⟩) (runCalls ++ postCalls)).get (by decide)
  have hinit : S.Init (.initial, ⟨0, 0⟩) := ⟨rfl, rfl⟩
  have hp : S.ReachableUnder
      (fun p a => p.1.StopsAfterRun a ∧ p.1.NoWorkerWins a ∧ p.1.Fits a) p :=
    System.ReachableUnder.execWhile htest (.init hinit) (Option.some_get _).symm
  have hidle : ∀ t, p.1.frame t = none := by
    rintro (⟨⟩ | w) <;> rfl
  have hrunning : p.1.state = .Running := by decide
  have hret : p.1.RunReturned := by
    refine ⟨by simp [hrunning], fun t pc hf => ?_⟩
    rw [hidle t] at hf
    cases hf
  exact ⟨p, hrunning, by decide, can_stop_iff (by decide) hp (by decide) hrunning hret
    (hidle (.client ()))⟩

end State

end Sgrpc
