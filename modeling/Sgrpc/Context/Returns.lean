import Sgrpc.Context.Attach
import Sgrpc.Context.Counters
import Sgrpc.Context.Never
import Sgrpc.Interleaving.Progress

/-!
# The calls that a shutdown waits for can return

While the winning `stop` shuts the context down, other threads are still in member functions.
Each of these calls can be brought to its end by steps of its own thread, but for `padlock_`, which
it may have to wait for (`Down.finish`); and whoever holds `padlock_` can give it back
(`Down.free`). So the counters of calls in progress that the winner, or a worker, waits for can come
down to zero (`Down.leave`). `in_push_` does not wrap on the way.
-/

namespace Sgrpc

open Interleaving
open AtomicTaskStealingQueue (PushStep)

/-! ### How far a call is from its end -/

/-- The number of steps to the end of this `push` when no `try_push` fails. -/
def PushPc.rank (n : ℕ) : PushPc Thunk → ℕ
  | .counted _ => 4
  | .next _ => 3
  | .probe _ _ i => if i = n then 4 else 2
  | .leaving _ _ => 1
  | _ => 0

def PostPc.rank : PostPc → ℕ
  | .counted => 4
  | .decided _ => 3
  | .creating _ => 2
  | .leaving _ => 1

def RunPc.rank : RunPc → ℕ
  | .locking => 3
  | .setting => 2
  | _ => 1

def NotifyPc.rank : NotifyPc → ℕ
  | .locking => 4
  | .checking => 3
  | .pushing => 2
  | .unlocking => 1

def AttachPc.rank : AttachPc → ℕ
  | .locking => 4
  | .checking => 3
  | .pushing => 2
  | .unlocking _ => 1

def StopPc.rank : StopPc → ℕ
  | .setting => 2
  | _ => 1

/-- A bound on the number of steps to the end of a call that neither starts the workers nor shuts
the context down. -/
def Frame.rank (n : ℕ) : Frame → ℕ
  | .push _ pc => pc.rank n
  | .post _ _ pc => pc.rank
  | .runWhile pc => pc.rank
  | .stop pc => pc.rank
  | .attach _ pc => pc.rank
  | .notify _ pc => pc.rank
  | .work _ => 1

/-- The next step of the call is to lock `padlock_`. -/
def Frame.AtLock : Frame → Prop
  | .runWhile .locking | .attach _ .locking | .notify _ .locking | .stop .locking => True
  | _ => False

theorem Frame.AtLock.not_locked {f : Frame} (h : f.AtLock) : ¬ f.Locked := by
  unfold AtLock at h
  split at h
  · exact id
  · exact id
  · exact id
  · exact id
  · exact h.elim

namespace State

variable {cfg : Config} {τ : Type*} [DecidableEq τ] {s s' : State cfg τ} {a : Act τ}
  {t u : Tid τ}

/-! ### Runs in which the handshakes hold -/

/-- `stop` is called after `run_while` has returned, no worker makes the change to `ShuttingDown`,
and no exception leaves a `post` or a `push`, or gets to the loop of a worker. -/
def Smooth (s : State cfg τ) (a : Act τ) : Prop :=
  s.StopsAfterRun a ∧ s.NoWorkerWins a ∧ ¬ s.Throws a ∧ s.Contains a

/-- Besides, `in_push_` does not wrap. -/
def Gentle (s : State cfg τ) (a : Act τ) : Prop := s.Smooth a ∧ s.Fits a

/-- A `push` that ends in `std::terminate` has been left by an exception. -/
theorem pushThrows_of_pushStep {f : Thunk} {pc : PushPc Thunk} {answer : ApiAnswer}
    (hf : s.frame t = some (.push f pc)) (h : s.pushStep t f pc answer.slot = some s')
    (hgoing : s.terminated = false) (hterm : s'.terminated = true) :
    s.PushThrows (.api t answer) := by
  obtain ⟨⟨q', pc', ev⟩, hr, rfl⟩ := Option.map_eq_some_iff.mp h
  cases pc' with
  | threw g =>
    cases AtomicTaskStealingQueue.pushStep_spec hr with
    | throw hi =>
      exact pushThrows_iff.mpr ⟨t, f, _, _, _, answer, rfl, hf, hi, slot_of_threw hr⟩
  | _ =>
    have hkept : s.terminated = true := hterm
    rw [hgoing] at hkept
    cases hkept

/-- `std::terminate` is not called. -/
theorem not_terminated (h : (contextSystem cfg τ).ReachableUnder Smooth s) :
    s.terminated = false := by
  induction h with
  | init hi => exact hi ▸ rfl
  | @step u u' a hr hP hs ih =>
    by_contra hterm
    have hterm : u'.terminated = true := by simpa using hterm
    rcases terminated_of_step hs hterm with ⟨k, last, w, hf, -, -, ht⟩ | habort | hall | hcontains
    · rw [ht] at hf
      exact no_worker_won (hr.mono fun _ _ hQ => hQ.2.1) hf trivial
    · exact not_atAbort (rangeComplete_of_stopsAfterRun (hr.mono fun _ _ hQ => hQ.1)) _ habort
    · refine hall ?_
      rcases a with c | ⟨v, answer⟩ | w
      · trivial
      · intro f pc hf _
        have hstep : u.pushStep v f pc answer.slot = some u' := by
          simpa [contextSystem, step, ih, apiStep, hf] using hs
        exact absurd (Or.inr (pushThrows_of_pushStep hf hstep ih hterm)) hP.2.2.1
      · trivial
    · exact hcontains hP.2.2.2

/-- Nothing is lost. -/
theorem leaks_of_smooth (h : (contextSystem cfg τ).ReachableUnder Smooth s) :
    s.Leaks ⟨0, 0⟩ := by
  refine h.invariant (I := fun u => u.Leaks ⟨0, 0⟩) ?_ fun u a u' _ hI hP hs => ?_
  · rintro _ rfl
    exact leaks_initial
  · have hnot := not_or.mp hP.2.2.1
    have hleaks := hI.step hs
    rwa [recordThrown, if_neg hnot.1, if_neg hnot.2] at hleaks

/-- An exception that gets out ends in `std::terminate`, unless it leaves a `post` or a `push`. -/
theorem contains_of_step (hs : s.step a = some s') (hnot : ¬ s.Throws a)
    (hgo : s'.terminated = false) : s.Contains a := by
  cases a with
  | call => trivial
  | api t answer =>
    intro kind id i hf _
    by_contra hthrows
    refine hnot (Or.inl (postThrows_iff.mpr ⟨t, kind, id, i, answer, rfl, hf, ?_⟩))
    simpa using hthrows
  | work w answer =>
    intro hfatal
    by_contra hthrows
    have hthrows' : answer.throws = true := by simpa using hthrows
    obtain ⟨hterm, -⟩ := step_spec hs
    simp only [step, hterm, workStep, Bool.false_eq_true, if_false] at hs
    split at hs
    · rw [if_pos ⟨hthrows', hfatal⟩] at hs
      cases hs
      cases hgo
    · cases hs

/-- A run that has come to a state with exact counters has seen no exception. -/
theorem smooth_of_countersOk (h : (contextSystem cfg τ).ReachableUnder
      (fun s a => s.StopsAfterRun a ∧ s.NoWorkerWins a ∧ s.Fits a) s)
    (hgo : s.terminated = false) (hok : s.CountersOk) :
    (contextSystem cfg τ).ReachableUnder Smooth s := by
  induction h with
  | init hi => exact .init hi
  | @step u u' a hr hP hs ih =>
    obtain ⟨n, hloses⟩ := exists_loses (hr.mono fun _ _ hQ => hQ.2.2)
    obtain ⟨hok', hnot⟩ := hok.of_step hloses hP.2.2 hs
    exact (ih (step_spec hs).1 hok').step ⟨hP.1, hP.2.1, hnot, contains_of_step hs hnot hgo⟩ hs

/-! ### A context that is being shut down -/

/-- The thread `t` shuts the context down, and has come to `pc`. -/
structure Down (s : State cfg τ) (t : Tid τ) (pc : StopPc) : Prop where
  run : (contextSystem cfg τ).ReachableUnder Smooth s
  frame : s.frame t = some (.stop pc)
  draining : pc.Draining

/-- A step in which nothing is called, nothing fails and no predicate holds. -/
def Winds : Act τ → Prop
  | .call _ _ => False
  | .api _ answer => answer = ⟨.free, false, false, false⟩
  | .work _ answer => answer.predicate = false ∧ answer.throws = false

omit [DecidableEq τ] in
theorem winds_go (t : Tid τ) : Winds (go t) := rfl

omit [DecidableEq τ] in
theorem stopsAfterRun_of_winds (s : State cfg τ) (ha : Winds a) : s.StopsAfterRun a := by
  intro u hcaller
  rcases a with c | v | ⟨w, answer⟩
  · exact ha.elim
  · cases hcaller
  · simp [stopCaller, ha.1] at hcaller

omit [DecidableEq τ] in
theorem not_throws_of_winds (s : State cfg τ) (ha : Winds a) : ¬ s.Throws a := by
  rintro (hthrows | hthrows)
  · obtain ⟨_, _, _, _, answer, rfl, -, hthrows⟩ := postThrows_iff.mp hthrows
    obtain rfl : answer = ⟨.free, false, false, false⟩ := ha
    cases hthrows
  · obtain ⟨_, _, _, _, _, answer, rfl, -, -, hslot⟩ := pushThrows_iff.mp hthrows
    obtain rfl : answer = ⟨.free, false, false, false⟩ := ha
    cases hslot

omit [DecidableEq τ] in
theorem contains_of_winds (s : State cfg τ) (ha : Winds a) : s.Contains a := by
  rcases a with c | ⟨t, answer⟩ | ⟨w, answer⟩
  · trivial
  · obtain rfl : answer = ⟨.free, false, false, false⟩ := ha
    exact fun _ _ _ _ _ => rfl
  · exact fun _ => ha.2

omit [DecidableEq τ] in
theorem smooth_of_call {c : Call} (h : s.StopsAfterRun (.call t c)) : s.Smooth (.call t c) :=
  ⟨h, trivial, not_or.mpr ⟨id, id⟩, trivial⟩

omit [DecidableEq τ] in
theorem smooth_of_work {w : ℕ} {answer : WorkAnswer} (h : s.StopsAfterRun (.work w answer))
    (hthrows : answer.throws = false) : s.Smooth (.work w answer) :=
  ⟨h, trivial, not_or.mpr ⟨id, id⟩, fun _ => hthrows⟩

omit [DecidableEq τ] in
/-- Only a worker that moves in `stop` may make the change. -/
theorem smooth_of_go {c : τ} : s.Smooth (go (.client c)) :=
  ⟨s.stopsAfterRun_of_winds (winds_go _), trivial, s.not_throws_of_winds (winds_go _),
    s.contains_of_winds (winds_go _)⟩

omit [DecidableEq τ] in
theorem fits_go (s : State cfg τ) (u : Tid τ) : s.Fits (go u) := fun hcalls => hcalls.elim

namespace Down

variable {pc pc' : StopPc}

theorem state (h : s.Down t pc) : s.state = .ShuttingDown :=
  (stopOk_of_reachable h.run.reachable).draining t pc h.frame h.draining

theorem terminated (h : s.Down t pc) : s.terminated = false := not_terminated h.run

theorem returned (h : s.Down t pc) : s.RunReturned :=
  returned_of_stop (h.run.mono fun _ _ hP => hP.1) h.frame

/-- It is not a worker. -/
theorem ne_worker (h : s.Down t pc) (w : ℕ) : t ≠ .worker w := by
  rintro rfl
  exact no_worker_won (h.run.mono fun _ _ hP => hP.2.1) h.frame h.draining.won

theorem smooth (h : s.Down t pc) (ha : Winds a) : s.Smooth a := by
  refine ⟨stopsAfterRun_of_winds s ha, ?_, not_throws_of_winds s ha, contains_of_winds s ha⟩
  have hrunning : s.state ≠ .Running := by simp [h.state]
  rcases a with c | ⟨_ | v, answer⟩ | v
  · trivial
  · trivial
  · exact fun _ => hrunning
  · trivial

theorem gentle_go (h : s.Down t pc) (u : Tid τ) : s.Gentle (go u) :=
  ⟨h.smooth (winds_go u), fits_go s u⟩

/-- Another thread moves. -/
theorem other (h : s.Down t pc) (ha : Winds a) (hs : s.step a = some s') (hne : t ≠ a.thread) :
    s'.Down t pc where
  run := h.run.step (h.smooth ha) hs
  frame := (frame_of_step (step_spec hs).2 hne).trans h.frame
  draining := h.draining

/-- The thread itself moves. -/
theorem advance (h : s.Down t pc) (hs : s.step (go t) = some s')
    (hframe : s'.frame t = some (.stop pc')) (hpc' : pc'.Draining) : s'.Down t pc' where
  run := h.run.step (h.smooth (winds_go t)) hs
  frame := hframe
  draining := hpc'

end Down

/-! ### One step of a call -/

/-- The thread `u`, in the call `f`, can take a step that brings it nearer to its end. -/
def Goes (s : State cfg τ) (u : Tid τ) (f : Frame) : Prop :=
  ∃ s', s.step (go u) = some s' ∧
    ∀ g, s'.frame u = some g → g.rank cfg.nTaskQueues < f.rank cfg.nTaskQueues ∧ ¬ g.AtLock

theorem Goes.to_frame {f g : Frame} (hs : s.step (go u) = some s')
    (hframe : s'.frame = Function.update s.frame u (some g))
    (hlt : g.rank cfg.nTaskQueues < f.rank cfg.nTaskQueues) (hg : ¬ g.AtLock) : s.Goes u f := by
  refine ⟨s', hs, fun g' hg' => ?_⟩
  rw [hframe, Function.update_self] at hg'
  cases hg'
  exact ⟨hlt, hg⟩

theorem Goes.to_end {f : Frame} (hs : s.step (go u) = some s')
    (hframe : s'.frame = Function.update s.frame u none) : s.Goes u f := by
  refine ⟨s', hs, fun g hg => ?_⟩
  rw [hframe, Function.update_self] at hg
  cases hg

theorem goes_push (hn : 0 < cfg.nTaskQueues) {f : Thunk} {pc : PushPc Thunk}
    {tested : Option Bool} (hrecord : pc.Says f tested) (hterm : s.terminated = false)
    (hf : s.frame u = some (.push f pc)) : s.Goes u (.push f pc) := by
  have hgo : s.step (go u) = s.pushStep u f pc .free := by simp [step, go, hterm, apiStep, hf]
  cases pc with
  | counted g =>
    cases hd : s.taskQueue.isDone with
    | false =>
      simp only [pushStep, AtomicTaskStealingQueue.pushStep, hd] at hgo
      exact .to_frame hgo rfl (by simp [Frame.rank, PushPc.rank]) id
    | true =>
      simp only [pushStep, AtomicTaskStealingQueue.pushStep, hd] at hgo
      exact .to_frame hgo rfl (by simp [Frame.rank, PushPc.rank]) id
  | next g =>
    simp only [pushStep, AtomicTaskStealingQueue.pushStep] at hgo
    refine .to_frame hgo rfl ?_ id
    simp [Frame.rank, PushPc.rank, hn.ne]
  | probe g o i =>
    by_cases hi : i = cfg.nTaskQueues
    · simp only [pushStep, AtomicTaskStealingQueue.pushStep, if_pos hi] at hgo
      refine .to_frame hgo rfl ?_ id
      simp [Frame.rank, PushPc.rank, hi]
    · simp only [pushStep, AtomicTaskStealingQueue.pushStep, if_neg hi] at hgo
      refine .to_frame hgo rfl ?_ id
      simp [Frame.rank, PushPc.rank, hi]
  | leaving isDone g =>
    simp only [pushStep, AtomicTaskStealingQueue.pushStep] at hgo
    exact .to_end hgo rfl
  | idle | returned | threw => exact hrecord.elim

theorem goes_post {kind : PostKind} {id : ℕ} {pc : PostPc} (hterm : s.terminated = false)
    (hf : s.frame u = some (.post kind id pc)) : s.Goes u (.post kind id pc) := by
  have hgo : s.step (go u) = some (s.postStep u kind id false pc) := by
    simp [step, go, hterm, apiStep, hf]
  rcases pc with - | (_ | _) | i | can
  · exact .to_frame hgo rfl (Nat.lt_succ_self 3) (fun h => h)
  · exact .to_frame hgo rfl (Nat.lt_succ_of_lt (Nat.lt_succ_self 1)) (fun h => h)
  · exact .to_frame hgo rfl (Nat.lt_succ_self 2) (fun h => h)
  · exact .to_frame hgo rfl (Nat.lt_succ_self 1) (fun h => h)
  · exact .to_end hgo rfl

theorem goes_runWhile {pc : RunPc} (hpc : ¬ pc.Won) (hterm : s.terminated = false)
    (hready : s.state ≠ .Ready) (hf : s.frame u = some (.runWhile pc))
    (hlock : pc = .locking → s.padlock = false) : s.Goes u (.runWhile pc) := by
  have hgo : s.step (go u) = s.runStep u pc := by simp [step, go, hterm, apiStep, hf]
  cases pc with
  | locking =>
    simp only [runStep, hlock rfl, Bool.false_eq_true, if_false] at hgo
    exact .to_frame hgo rfl (Nat.lt_succ_self 2) id
  | setting =>
    simp only [runStep, ExecutionState.setState_running_none.mpr hready] at hgo
    exact .to_frame hgo rfl (Nat.lt_succ_self 1) id
  | unlocking won =>
    cases won with
    | false =>
      simp only [runStep] at hgo
      exact .to_end hgo rfl
    | true => exact absurd trivial hpc
  | spawning | storing => exact absurd trivial hpc

theorem goes_stop {pc : StopPc} (hpc : ¬ pc.Won) (hterm : s.terminated = false)
    (hrunning : s.state ≠ .Running) (hf : s.frame u = some (.stop pc)) : s.Goes u (.stop pc) := by
  have hgo : s.step (go u) = s.stopStep u false pc := by
    simp [step, go, hterm, apiStep, hf]
  rcases StopPc.not_won_iff.mp hpc with rfl | rfl
  · simp only [stopStep, ExecutionState.setState_shuttingDown_none.mpr hrunning] at hgo
    exact .to_frame hgo rfl (Nat.lt_succ_self 1) id
  · simp only [stopStep] at hgo
    exact .to_end hgo rfl

theorem goes_work {h : ℕ} (hterm : s.terminated = false) (hf : s.frame u = some (.work h)) :
    s.Goes u (.work h) := by
  have hgo : s.step (go u) = some (s.workEndStep u h false) := by
    simp [step, go, hterm, apiStep, hf]
  exact .to_end hgo rfl

theorem goes_attach {server : ServerContainer} {pc : AttachPc} (hterm : s.terminated = false)
    (hf : s.frame u = some (.attach server pc)) (hlock : pc = .locking → s.padlock = false) :
    s.Goes u (.attach server pc) := by
  have hgo : s.step (go u) = s.attachStep u server pc := by simp [step, go, hterm, apiStep, hf]
  cases pc with
  | locking =>
    simp only [attachStep, hlock rfl, Bool.false_eq_true, if_false] at hgo
    exact .to_frame hgo rfl (Nat.lt_succ_self 3) id
  | checking =>
    simp only [attachStep] at hgo
    split at hgo
    · exact .to_frame hgo rfl (Nat.lt_succ_self 2) id
    · exact .to_frame hgo rfl (Nat.lt_succ_of_lt (Nat.lt_succ_self 1)) id
  | pushing =>
    simp only [attachStep] at hgo
    exact .to_frame hgo rfl (Nat.lt_succ_self 1) id
  | unlocking attached =>
    cases attached <;>
      · simp only [attachStep] at hgo
        exact .to_end hgo rfl

theorem goes_notify {id : ℕ} {pc : NotifyPc} (hterm : s.terminated = false)
    (hf : s.frame u = some (.notify id pc)) (hlock : pc = .locking → s.padlock = false) :
    s.Goes u (.notify id pc) := by
  have hgo : s.step (go u) = s.notifyStep u id pc := by simp [step, go, hterm, apiStep, hf]
  cases pc with
  | locking =>
    simp only [notifyStep, registerStep, hlock rfl, Bool.false_eq_true, if_false] at hgo
    exact .to_frame hgo rfl (Nat.lt_succ_self 3) (fun h => h)
  | checking =>
    simp only [notifyStep, registerStep] at hgo
    split at hgo
    · exact .to_frame hgo rfl (Nat.lt_succ_self 2) (fun h => h)
    · exact .to_frame hgo rfl (Nat.lt_succ_of_lt (Nat.lt_succ_self 1)) (fun h => h)
  | pushing =>
    simp only [notifyStep, registerStep] at hgo
    exact .to_frame hgo rfl (Nat.lt_succ_self 1) (fun h => h)
  | unlocking =>
    simp only [notifyStep, registerStep] at hgo
    exact .to_end hgo rfl

/-- Every call but the `stop` that shuts the context down can go on, when `padlock_` is free if it
has to lock it next. -/
theorem Down.goes {pc : StopPc} (h : s.Down t pc) (hn : 0 < cfg.nTaskQueues) (hne : u ≠ t)
    {f : Frame} (hf : s.frame u = some f) (hlock : f.AtLock → s.padlock = false) :
    s.Goes u f := by
  have hterm := h.terminated
  have hstate := h.state
  cases f with
  | push thunk qc =>
    exact goes_push hn ((pushesOk_of_reachable h.run.reachable).running u thunk qc hf).2.2 hterm hf
  | post => exact goes_post hterm hf
  | runWhile qc =>
    refine goes_runWhile (h.returned.2 u qc hf) hterm h.returned.1 hf ?_
    rintro rfl
    exact hlock trivial
  | stop qc =>
    -- the other ones have not made the change
    refine goes_stop (fun hwon => hne ?_) hterm (by simp [hstate]) hf
    exact (stopOk_of_reachable h.run.reachable).unique u t qc pc hf h.frame hwon h.draining.won
  | attach server qc =>
    refine goes_attach hterm hf ?_
    rintro rfl
    exact hlock trivial
  | notify id qc =>
    refine goes_notify hterm hf ?_
    rintro rfl
    exact hlock trivial
  | work => exact goes_work hterm hf

/-! ### Calls return -/

/-- No worker has moved, and no call has been made; some may have returned. -/
structure Eases (s s' : State cfg τ) : Prop where
  frame : ∀ u, s'.frame u = s.frame u ∨ s'.frame u = none
  worker : s'.worker = s.worker

omit [DecidableEq τ] in
theorem Eases.refl (s : State cfg τ) : Eases s s := ⟨fun _ => Or.inl rfl, rfl⟩

omit [DecidableEq τ] in
theorem Eases.trans {s'' : State cfg τ} (h : Eases s s') (h' : Eases s' s'') : Eases s s'' where
  frame u := by
    rcases h'.frame u with heq | hnone
    · rw [heq]
      exact h.frame u
    · exact Or.inr hnone
  worker := h'.worker.trans h.worker

theorem worker_of_go (hs : s.step (go u) = some s') : s'.worker = s.worker := by
  rcases loop_of_step (step_spec hs).2 with hsame | ⟨w, answer, heq, -⟩
  · exact hsame.worker
  · cases heq

/-- How far the thread `u` is from being in no call. -/
def toReturn (s : State cfg τ) (u : Tid τ) : ℕ :=
  match s.frame u with
  | some f => f.rank cfg.nTaskQueues + 1
  | none => 0

omit [DecidableEq τ] in
theorem toReturn_lt {f : Frame} (hf : s.frame u = some f) (hnearer : ∀ g, s'.frame u = some g →
    g.rank cfg.nTaskQueues < f.rank cfg.nTaskQueues) : s'.toReturn u < s.toReturn u := by
  simp only [toReturn, hf]
  cases hg : s'.frame u with
  | none => exact Nat.succ_pos _
  | some g => exact Nat.succ_lt_succ (hnearer g hg)

namespace Down

variable {pc : StopPc}

/-- The call of another thread returns. -/
theorem finish (h : s.Down t pc) (hn : 0 < cfg.nTaskQueues) (hne : u ≠ t)
    (hlock : ∀ f, s.frame u = some f → f.AtLock → s.padlock = false) :
    (contextSystem cfg τ).MayReach Gentle s fun s' => s'.Down t pc ∧ s'.frame u = none ∧
      (∀ v, v ≠ u → s'.frame v = s.frame v) ∧ s'.worker = s.worker := by
  refine System.MayReach.of_measure
    (I := fun x => x.Down t pc ∧ (∀ v, v ≠ u → x.frame v = s.frame v) ∧ x.worker = s.worker ∧
      ∀ f, x.frame u = some f → f.AtLock → x.padlock = false)
    (fun x => x.toReturn u) ?_ ⟨h, fun _ _ => rfl, rfl, hlock⟩
  rintro x ⟨hdown, hframe, hworker, hlock⟩
  cases hf : x.frame u with
  | none => exact .now (Or.inl ⟨hdown, hf, hframe, hworker⟩)
  | some f =>
    obtain ⟨x', hs, hnearer⟩ := hdown.goes hn hne hf (hlock f hf)
    refine .step (hdown.gentle_go u) hs (.now (Or.inr
      ⟨⟨hdown.other (winds_go u) hs hne.symm, fun v hv => ?_, (worker_of_go hs).trans hworker,
        fun g hg hat => ?_⟩, toReturn_lt hf fun g hg => (hnearer g hg).1⟩))
    · exact (frame_of_step (step_spec hs).2 hv).trans (hframe v hv)
    · exact absurd hat (hnearer g hg).2

/-- `padlock_` is given back. -/
theorem free (h : s.Down t pc) (hn : 0 < cfg.nTaskQueues) (hpc : ¬ pc.Locked) :
    (contextSystem cfg τ).MayReach Gentle s fun s' =>
      s'.Down t pc ∧ s'.padlock = false ∧ Eases s s' := by
  cases hp : s.padlock with
  | false => exact .now ⟨h, hp, .refl s⟩
  | true =>
    obtain ⟨u, f, hf, hlocked⟩ := exists_holds h.run.reachable hp
    have hne : u ≠ t := by
      rintro rfl
      rw [h.frame] at hf
      cases hf
      exact hpc hlocked
    refine (h.finish hn hne fun g hg hat => ?_).imp fun s' _ hover => ?_
    · rw [hf] at hg
      cases hg
      exact absurd hlocked hat.not_locked
    · obtain ⟨hdown, hnone, hframe, hworker⟩ := hover
      refine ⟨hdown, ?_, fun v => ?_, hworker⟩
      · by_contra htaken
        obtain ⟨v, g, hg, hlocked'⟩ := exists_holds hdown.run.reachable (by simpa using htaken)
        -- it has held the lock before
        have hv : v ≠ u := by
          rintro rfl
          rw [hnone] at hg
          cases hg
        exact hv (eq_of_locked h.run.reachable ((hframe v hv).symm.trans hg) hf hlocked' hlocked)
      · rcases eq_or_ne v u with rfl | hv
        · exact Or.inr hnone
        · exact Or.inl (hframe v hv)

theorem leaks (h : s.Down t pc) : s.Leaks ⟨0, 0⟩ := leaks_of_smooth h.run

/-- All calls of a kind return. -/
theorem leave (hn : 0 < cfg.nTaskQueues) (inside : Option Frame → Prop) (hnone : ¬ inside none)
    (hstop : ∀ qc, ¬ inside (some (.stop qc))) (hlock : ∀ f, inside (some f) → ¬ f.AtLock) {m : ℕ} :
    ∀ {s : State cfg τ}, s.Down t pc → (Counts m fun u => inside (s.frame u)) →
      (contextSystem cfg τ).MayReach Gentle s fun s' =>
        s'.Down t pc ∧ (∀ u, ¬ inside (s'.frame u)) ∧ Eases s s' := by
  induction m with
  | zero => exact fun h hcounts => .now ⟨h, hcounts.not_of_zero, .refl _⟩
  | succ m ih =>
    intro s h hcounts
    obtain ⟨u, hu⟩ := hcounts.exists_of_pos m.succ_pos
    have hne : u ≠ t := by
      rintro rfl
      rw [h.frame] at hu
      exact hstop pc hu
    refine (h.finish hn hne fun f hf hat => absurd hat (hlock f (hf ▸ hu))).bind
      fun x _ hover => ?_
    obtain ⟨hdown, hgone, hframe, hworker⟩ := hover
    have hleft : Counts m fun v => inside (x.frame v) :=
      hcounts.leave hu (by rwa [hgone]) fun v hv => by rw [hframe v hv]
    have heases : Eases s x := by
      refine ⟨fun v => ?_, hworker⟩
      rcases eq_or_ne v u with rfl | hv
      · exact Or.inr hgone
      · exact Or.inl (hframe v hv)
    exact (ih hdown hleft).imp fun y _ hy => ⟨hy.1, hy.2.1, heases.trans hy.2.2⟩

end Down

end State

end Sgrpc
