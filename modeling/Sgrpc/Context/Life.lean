import Sgrpc.Context.Spec

/-!
# The life cycle of a context

Which steps move a context through `Ready`, `Running`, `ShuttingDown` and `Stopped`, and what the
threads that do so rely on. Only calls of `run_while` and `stop` and the steps inside them touch
the state, the threads and the joins (`LifeStep`); every other step keeps them (`SameLife`). From
this: the change to `Running` is made by one `run_while`, which alone creates threads, and the
change to `ShuttingDown` by one `stop`, which alone goes on to halt the queues and to join
(`RunOk`, `StopOk`).
-/

namespace Sgrpc

open Interleaving

/-! ### Phases of `run_while` and `stop` -/

/-- This `run_while` has made the change to `Running`. -/
def RunPc.Won : RunPc → Prop
  | .unlocking true | .spawning _ | .storing _ => True
  | _ => False

/-- The number of threads that a `run_while` at this point has moved into `threads_`. -/
def RunPc.stored : RunPc → ℕ
  | .spawning i | .storing i => i
  | _ => 0

/-- The number of threads that a `run_while` at this point has created. -/
def RunPc.created : RunPc → ℕ
  | .spawning i => i
  | .storing i => i + 1
  | _ => 0

/-- This `stop` has made the change to `ShuttingDown`. -/
def StopPc.Won : StopPc → Prop
  | .setting | .lost => False
  | _ => True

/-- This `stop` has made the change to `ShuttingDown`, and not yet that to `Stopped`. -/
def StopPc.Draining : StopPc → Prop
  | .waiting | .halting _ | .joining _ _ | .clearing | .locking | .publishing => True
  | _ => False

/-- A worker at this point may be in a member function that its loop, or the code it runs there,
has called. -/
def WorkerPc.Calling : WorkerPc → Prop
  | .stopping | .completing _ _ _ (.handler _ _ .posting) => True
  | pc => pc.InUserCode

instance : DecidablePred RunPc.Won := fun pc => by
  unfold RunPc.Won
  split <;> infer_instance

instance : DecidablePred StopPc.Won := fun pc => by
  unfold StopPc.Won
  split <;> infer_instance

instance : DecidablePred StopPc.Draining := fun pc => by
  unfold StopPc.Draining
  split <;> infer_instance

@[simp] theorem RunPc.won_locking : ¬ RunPc.locking.Won := id
@[simp] theorem RunPc.won_setting : ¬ RunPc.setting.Won := id
@[simp] theorem RunPc.won_unlocking {b : Bool} : (RunPc.unlocking b).Won ↔ b = true := by
  cases b <;> simp [Won]
@[simp] theorem RunPc.won_spawning {i : ℕ} : (RunPc.spawning i).Won := trivial
@[simp] theorem RunPc.won_storing {i : ℕ} : (RunPc.storing i).Won := trivial

@[simp] theorem StopPc.won_iff {pc : StopPc} : pc.Won ↔ pc ≠ .setting ∧ pc ≠ .lost := by
  cases pc <;> simp [Won]

theorem StopPc.not_won_iff {pc : StopPc} : ¬ pc.Won ↔ pc = .setting ∨ pc = .lost := by
  cases pc <;> simp [Won]

theorem WorkerPc.InUserCode.calling {pc : WorkerPc} (h : pc.InUserCode) : pc.Calling := by
  unfold Calling
  split
  · trivial
  · trivial
  · exact h

theorem StopPc.Draining.won {pc : StopPc} (h : pc.Draining) : pc.Won := by
  rw [won_iff]
  constructor
  · rintro rfl
    exact h
  · rintro rfl
    exact h

namespace State

variable {cfg : Config} {τ : Type*} {s s' : State cfg τ} {a : Act τ} {t : Tid τ}

/-! ### Steps that leave the life cycle alone -/

/-- A thread that is in neither `run_while` nor `stop`. -/
def Neutral : Option Frame → Prop
  | some (.runWhile _) | some (.stop _) => False
  | _ => True

/-- What the life cycle is about is the same in both states. -/
structure SameLife (s s' : State cfg τ) : Prop where
  state : s'.state = s.state
  threads : s'.threads = s.threads
  created : s'.created = s.created
  joins : s'.joins = s.joins
  run : ∀ t pc, s'.frame t = some (.runWhile pc) ↔ s.frame t = some (.runWhile pc)
  stop : ∀ t pc, s'.frame t = some (.stop pc) ↔ s.frame t = some (.stop pc)

/-- Every thread stays where it is. -/
theorem SameLife.of_frame_eq (hframe : s'.frame = s.frame) (hstate : s'.state = s.state)
    (hthreads : s'.threads = s.threads) (hcreated : s'.created = s.created)
    (hjoins : s'.joins = s.joins) : SameLife s s' :=
  ⟨hstate, hthreads, hcreated, hjoins, fun _ _ => by rw [hframe], fun _ _ => by rw [hframe]⟩

theorem SameLife.trans {s'' : State cfg τ} (h : SameLife s s') (h' : SameLife s' s'') :
    SameLife s s'' where
  state := h'.state.trans h.state
  threads := h'.threads.trans h.threads
  created := h'.created.trans h.created
  joins := h'.joins.trans h.joins
  run t pc := (h'.run t pc).trans (h.run t pc)
  stop t pc := (h'.stop t pc).trans (h.stop t pc)

theorem sameLife_setWorker (s : State cfg τ) (w : ℕ) (pc : WorkerPc) :
    SameLife s (s.setWorker w pc) := .of_frame_eq rfl rfl rfl rfl rfl

theorem sameLife_setHandler (s : State cfg τ) (h : ℕ) (hd : Handler) :
    SameLife s (s.setHandler h hd) := .of_frame_eq rfl rfl rfl rfl rfl

theorem sameLife_setCq (s : State cfg τ) (q : QueueId) (cq : CompletionQueue) :
    SameLife s (s.setCq q cq) := .of_frame_eq rfl rfl rfl rfl rfl

theorem sameLife_arm (s : State cfg τ) (q : QueueId) (immediate : Bool) :
    SameLife s (s.arm q immediate) := .of_frame_eq rfl rfl rfl rfl rfl

theorem sameLife_finish (s : State cfg τ) (h : ℕ) : SameLife s (s.finish h) :=
  .of_frame_eq rfl rfl rfl rfl rfl

theorem sameLife_execute (s : State cfg τ) (thunk : Thunk) (throws : Bool) (work : WorkEnd) :
    SameLife s (s.execute thunk throws work) := by
  obtain ⟨cq, suspended, hexec⟩ := execute_eq s thunk throws work
  rw [hexec]
  exact .of_frame_eq rfl rfl rfl rfl rfl

variable [DecidableEq τ]

/-- A thread moves on outside of `run_while` and `stop`. -/
theorem SameLife.of_frame {f : Option Frame} (hframe : s'.frame = Function.update s.frame t f)
    (hold : Neutral (s.frame t)) (hnew : Neutral f) (hstate : s'.state = s.state)
    (hthreads : s'.threads = s.threads) (hcreated : s'.created = s.created)
    (hjoins : s'.joins = s.joins) : SameLife s s' where
  state := hstate
  threads := hthreads
  created := hcreated
  joins := hjoins
  run u pc := by
    rw [hframe]
    rcases eq_or_ne u t with rfl | hu
    · rw [Function.update_self]
      refine iff_of_false ?_ ?_
      · rintro rfl
        exact hnew
      · intro h
        rw [h] at hold
        exact hold
    · rw [Function.update_of_ne hu]
  stop u pc := by
    rw [hframe]
    rcases eq_or_ne u t with rfl | hu
    · rw [Function.update_self]
      refine iff_of_false ?_ ?_
      · rintro rfl
        exact hnew
      · intro h
        rw [h] at hold
        exact hold
    · rw [Function.update_of_ne hu]

theorem sameLife_beginPush (s : State cfg τ) (body : ThunkBody) (h : Neutral (s.frame t)) :
    SameLife s (s.beginPush t body) := .of_frame (t := t) rfl h trivial rfl rfl rfl rfl

theorem sameLife_afterPush {thunk : Thunk} {q : AtomicTaskStealingQueue Thunk cfg.nTaskQueues}
    {pc : PushPc Thunk} {ev : List (QueueEvent Thunk)} (h : Neutral (s.frame t)) :
    SameLife s (s.afterPush t thunk q pc ev) := by
  cases pc <;> exact .of_frame (t := t) rfl h trivial rfl rfl rfl rfl

theorem sameLife_postStep {kind : PostKind} {id : ℕ} {throws : Bool} {pc : PostPc}
    (h : Neutral (s.frame t)) : SameLife s (s.postStep t kind id throws pc) := by
  rcases pc with - | (_ | _) | i | can
  · exact .of_frame (t := t) rfl h trivial rfl rfl rfl rfl
  · exact .of_frame (t := t) rfl h trivial rfl rfl rfl rfl
  · exact .of_frame (t := t) rfl h trivial rfl rfl rfl rfl
  · cases throws <;> exact .of_frame (t := t) rfl h trivial rfl rfl rfl rfl
  · exact .of_frame (t := t) rfl h trivial rfl rfl rfl rfl

theorem sameLife_completeStep {w k i : ℕ} {c : PassCounts} {what : Completion}
    (hw : s.frame (.worker w) = none) : SameLife s (s.completeStep w k i c what) := by
  rcases what with ⟨⟨id⟩ | ⟨id⟩ | ⟨h⟩, isOk⟩ | ⟨h, isOk, stage⟩
  · exact .of_frame_eq rfl rfl rfl rfl rfl
  · exact .of_frame_eq rfl rfl rfl rfl rfl
  · exact .of_frame_eq rfl rfl rfl rfl rfl
  · cases stage with
    | entered =>
      simp only [completeStep]
      split
      · exact sameLife_setWorker s _ _
      · exact ((sameLife_arm s _ _).trans (sameLife_setHandler _ _ _)).trans
          (sameLife_setWorker _ _ _)
    | armed =>
      have hn : Neutral (s.frame (.worker w)) := by
        rw [hw]
        trivial
      simp only [completeStep]
      split
      · exact (sameLife_finish s _).trans (sameLife_setWorker _ _ _)
      · exact (sameLife_beginPush s _ hn).trans (sameLife_setWorker _ _ _)
    | posting => exact sameLife_setWorker s _ _

/-! ### The steps of the life cycle -/

/-- The thread that calls `stop` with this action: by itself, or as a worker whose predicate
returned `true`. -/
def stopCaller (s : State cfg τ) : Act τ → Option (Tid τ)
  | .call t .stop => some t
  | .work w answer => if s.worker w = .top ∧ answer.predicate = true then some (.worker w) else none
  | _ => none

/-- A step, as the life cycle sees it. -/
inductive LifeStep (s : State cfg τ) : Act τ → State cfg τ → Prop
  | same {a : Act τ} {s' : State cfg τ} : SameLife s s' → LifeStep s a s'
  /-- `run_while` is called. -/
  | callRun {t : Tid τ} : s.frame t = none →
      LifeStep s (.call t .runWhile) (s.setFrame t (some (.runWhile .locking)))
  /-- `stop` is called. -/
  | callStop {t : Tid τ} {a : Act τ} {s' : State cfg τ} : s.frame t = none →
      s'.frame = Function.update s.frame t (some (.stop .setting)) →
      s'.state = s.state → s'.threads = s.threads → s'.created = s.created → s'.joins = s.joins →
      s.stopCaller a = some t → LifeStep s a s'
  | runWhile {t pc answer s'} : s.frame t = some (.runWhile pc) → RunStep s t pc s' →
      LifeStep s (.api t answer) s'
  | stop {t pc answer s'} : s.frame t = some (.stop pc) → StopStep s t pc s' →
      LifeStep s (.api t answer) s'

private theorem lifeStep_begin {c : Call} (h : s.frame t = none) :
    LifeStep s (.call t c) (s.begin t c) := by
  have hn : Neutral (s.frame t) := by
    rw [h]
    trivial
  cases c with
  | post | schedule | postAfter | postRpc | startRpc | addNotifyAtStopped =>
    exact .same (.of_frame (t := t) rfl hn trivial rfl rfl rfl rfl)
  | makeServer wired =>
    obtain ⟨cq, handler, nextHandler, hwire⟩ := wire_eq s s.nextId 0 wired
    refine .same ?_
    simp only [begin, beginAttach, hwire]
    split
    · exact .of_frame_eq rfl rfl rfl rfl rfl
    · exact .of_frame (t := t) rfl hn trivial rfl rfl rfl rfl
  | postAt now deadline =>
    refine .same ?_
    simp only [begin]
    split <;> exact .of_frame (t := t) rfl hn trivial rfl rfl rfl rfl
  | resume h' =>
    refine .same ?_
    simp only [begin]
    split
    · exact .of_frame (t := t) rfl hn trivial rfl rfl rfl rfl
    · exact .of_frame_eq rfl rfl rfl rfl rfl
  | runWhile => exact .callRun h
  | stop => exact .callStop h rfl rfl rfl rfl rfl rfl

private theorem lifeStep_work {w : ℕ} {answer : WorkAnswer} (hw : s.frame (.worker w) = none)
    (h : LoopStep s w answer (s.worker w) s') : LifeStep s (.work w answer) s' := by
  generalize hpc : s.worker w = pc at h
  cases h with
  | stop hp => exact .callStop hw rfl rfl rfl rfl rfl (if_pos ⟨hpc, hp⟩)
  | pass | stopped | pollNone | pollShutdown | nextSet | polled | leave | stay | popCall | pop
  | popped | missed | ejectCall | eject | ejected | exit =>
    exact .same (.of_frame_eq rfl rfl rfl rfl rfl)
  | pollEvent =>
    exact .same ((sameLife_setCq s _ _).trans (sameLife_setWorker _ _ _))
  | complete => exact .same (sameLife_completeStep hw)
  | run | executeNext =>
    exact .same ((sameLife_execute s _ _ _).trans (sameLife_setWorker _ _ _))

theorem lifeStep_of_step (h : Step s a s') : LifeStep s a s' := by
  cases h with
  | call hmay => exact lifeStep_begin hmay.1
  | push hf => exact .same (sameLife_afterPush (by rw [hf]; trivial))
  | post hf => exact .same (sameLife_postStep (by rw [hf]; trivial))
  | runWhile hf hrun => exact .runWhile hf hrun
  | stop hf hstop => exact .stop hf hstop
  | @attach t _ _ _ _ hf hat =>
    have hn : Neutral (s.frame t) := by
      rw [hf]
      trivial
    refine .same ?_
    cases hat <;> exact .of_frame (t := t) rfl hn trivial rfl rfl rfl rfl
  | @notify t _ _ _ _ hf hnot =>
    have hn : Neutral (s.frame t) := by
      rw [hf]
      trivial
    refine .same ?_
    cases hnot <;> exact .of_frame (t := t) rfl hn trivial rfl rfl rfl rfl
  | @workEnd t h answer hf =>
    have hn : Neutral (s.frame t) := by
      rw [hf]
      trivial
    obtain ⟨cq, hend⟩ := workEndStep_eq s t h answer.stopped
    rw [hend]
    exact .same (.of_frame (t := t) rfl hn trivial rfl rfl rfl rfl)
  | fatal => exact .same (.of_frame_eq rfl rfl rfl rfl rfl)
  | work _ hw hpc hloop => exact lifeStep_work hw (hpc ▸ hloop)

/-- The changes of the state. -/
inductive StateChange (s : State cfg τ) : Act τ → State cfg τ → Prop
  | same {a : Act τ} {s' : State cfg τ} : s'.state = s.state → StateChange s a s'
  | run {t : Tid τ} {answer : ApiAnswer} {s' : State cfg τ} :
      s.frame t = some (.runWhile .setting) → s.state = .Ready → s'.state = .Running →
      StateChange s (.api t answer) s'
  | shutDown {t : Tid τ} {answer : ApiAnswer} {s' : State cfg τ} :
      s.frame t = some (.stop .setting) → s.state = .Running → s'.state = .ShuttingDown →
      StateChange s (.api t answer) s'
  | stop {t : Tid τ} {answer : ApiAnswer} {s' : State cfg τ} :
      s.frame t = some (.stop .publishing) → s.state = .ShuttingDown → s'.state = .Stopped →
      StateChange s (.api t answer) s'

theorem stateChange_of_step (h : Step s a s') : StateChange s a s' := by
  cases lifeStep_of_step h with
  | same hsame => exact .same hsame.state
  | callRun => exact .same rfl
  | callStop _ _ hstate => exact .same hstate
  | runWhile hf hrun =>
    cases hrun with
    | win hready => exact .run hf hready rfl
    | lock | lose | unlock | giveUp | spawn | store | done => exact .same rfl
  | stop hf hstop =>
    cases hstop with
    | win hrun => exact .shutDown hf hrun rfl
    | publish hdown => exact .stop hf hdown rfl
    | yield | lose | giveUp | proceed | halt | range | selfJoin | join | joined | clear | abort
    | lock | keep | swap | unlock | done | notify
    | resume | reenter | relock | reaccept | rerefuse | repush | reunlock => exact .same rfl

/-! ### Workers and their calls -/

/-- The number of threads created never decreases. -/
theorem created_of_step (h : Step s a s') : s.created ≤ s'.created := by
  cases lifeStep_of_step h with
  | same hsame => exact Nat.le_of_eq hsame.created.symm
  | callRun => exact Nat.le_refl _
  | callStop _ _ _ _ hcreated => exact Nat.le_of_eq hcreated.symm
  | runWhile _ hrun => cases hrun <;> first | exact Nat.le_refl _ | exact Nat.le_succ _
  | stop _ hstop => cases hstop <;> exact Nat.le_refl _

/-- A worker that has not been created is at the beginning of its loop. -/
theorem worker_of_not_created (h : (contextSystem cfg τ).Reachable s) {w : ℕ}
    (hw : s.created ≤ w) : s.worker w = .top := by
  have hinv : ∀ w, s.created ≤ w → s.worker w = .top := by
    refine h.invariant (I := fun u => ∀ w, u.created ≤ w → u.worker w = .top) ?_
      fun u a u' _ hI _ hs v hv => ?_
    · rintro _ rfl _ _
      rfl
    · have hstep := (step_spec hs).2
      have hv' : u.created ≤ v := Nat.le_trans (created_of_step hstep) hv
      rcases loop_of_step hstep with hloops | ⟨x, answer, -, hx, -, hloop⟩
      · rw [hloops.worker]
        exact hI v hv'
      · obtain ⟨pc', hpc'⟩ := worker_of_loopStep hloop
        have hne : v ≠ x := by omega
        rw [hpc', Function.update_of_ne hne]
        exact hI v hv'
  exact hinv w hw

/-- The loop of a worker waits while the worker is in a member function. -/
theorem worker_of_frame (h : Step s a s') {w : ℕ} {f : Frame}
    (hf : s.frame (.worker w) = some f) : s'.worker w = s.worker w := by
  rcases loop_of_step h with hloops | ⟨x, answer, -, -, hidle, hloop⟩
  · rw [hloops.worker]
  · obtain ⟨pc', hpc'⟩ := worker_of_loopStep hloop
    have hne : w ≠ x := by
      rintro rfl
      rw [hidle] at hf
      cases hf
    rw [hpc', Function.update_of_ne hne]

/-- A worker that is in a member function has been created, and called it from a place where its
loop calls one. -/
theorem calling_of_reachable (h : (contextSystem cfg τ).Reachable s) {w : ℕ} {f : Frame}
    (hf : s.frame (.worker w) = some f) : w < s.created ∧ (s.worker w).Calling := by
  have hinv : ∀ w f, s.frame (.worker w) = some f → w < s.created ∧ (s.worker w).Calling := by
    refine h.invariant (I := fun u => ∀ w f, u.frame (.worker w) = some f →
      w < u.created ∧ (u.worker w).Calling) ?_ fun u a u' _ hI _ hs v f hv => ?_
    · rintro _ rfl w f hf
      cases hf
    · have hstep := (step_spec hs).2
      have hle := created_of_step hstep
      cases hbefore : u.frame (.worker v) with
      | some g =>
        -- it has been inside before, and its loop waits
        obtain ⟨hlt, hcalling⟩ := hI v g hbefore
        rw [worker_of_frame hstep hbefore]
        exact ⟨Nat.lt_of_lt_of_le hlt hle, hcalling⟩
      | none =>
        -- it has just called
        have hthread : .worker v = a.thread := by
          by_contra hne
          rw [frame_of_step hstep hne, hbefore] at hv
          cases hv
        cases hstep with
        | @call t c hmay =>
          obtain rfl : .worker v = t := hthread
          have hworker : (u.begin (.worker v) c).worker = u.worker := by
            rcases loop_of_step (.call hmay) with hloops | ⟨_, _, heq, -⟩
            · exact hloops.worker
            · cases heq
          obtain ⟨-, hlt, hcode⟩ := hmay
          rw [hworker]
          exact ⟨Nat.lt_of_lt_of_le hlt hle, hcode.calling⟩
        | @work x pc answer _ hx _ hpc hloop =>
          obtain rfl : v = x := by simpa [Act.thread] using hthread
          refine ⟨Nat.lt_of_lt_of_le hx hle, ?_⟩
          rcases frame_of_loopStep hloop with hframe | ⟨-, hw⟩ | ⟨_, _, _, _, _, _, -, hw⟩
          · rw [hframe, hbefore] at hv
            cases hv
          · rw [hw]
            trivial
          · rw [hw]
            trivial
        | push hf | post hf | runWhile hf | stop hf | attach hf | notify hf | workEnd hf =>
          have hnone := hbefore.symm.trans ((congrArg u.frame hthread).trans hf)
          cases hnone
        | fatal => exact absurd (hbefore.symm.trans hv) (by simp)
  exact hinv w f hf

/-! ### Who creates the threads -/

/-- At most one `run_while` has made the change to `Running`, and it alone creates threads. -/
structure RunOk (s : State cfg τ) : Prop where
  ready : s.state = .Ready →
    s.created = 0 ∧ ∀ t pc, s.frame t = some (.runWhile pc) → ¬ pc.Won
  unique : ∀ t u pc pc', s.frame t = some (.runWhile pc) → s.frame u = some (.runWhile pc') →
    pc.Won → pc'.Won → t = u
  created : ∀ t pc, s.frame t = some (.runWhile pc) → pc.Won →
    s.created = pc.created ∧ s.created ≤ cfg.nThreads
  complete : s.state ≠ .Ready → s.created = cfg.nThreads ∨
    ∃ t pc, s.frame t = some (.runWhile pc) ∧ pc.Won

omit [DecidableEq τ] in
theorem runOk_initial : (initial : State cfg τ).RunOk where
  ready _ := ⟨rfl, fun _ _ h => by cases h⟩
  unique _ _ _ _ h := by cases h
  created _ _ h := by cases h
  complete h := absurd rfl h

omit [DecidableEq τ] in
/-- Steps of others keep `RunOk`. -/
theorem RunOk.of_same (h : s.RunOk) (hready : s'.state = .Ready ↔ s.state = .Ready)
    (hcreated : s'.created = s.created)
    (hframe : ∀ t pc, RunPc.Won pc →
      (s'.frame t = some (.runWhile pc) ↔ s.frame t = some (.runWhile pc))) : s'.RunOk where
  ready hr := by
    obtain ⟨hzero, hnone⟩ := h.ready (hready.mp hr)
    exact ⟨hcreated.trans hzero, fun t pc hf hwon => hnone t pc ((hframe t pc hwon).mp hf) hwon⟩
  unique t u pc pc' hf hf' hwon hwon' :=
    h.unique t u pc pc' ((hframe t pc hwon).mp hf) ((hframe u pc' hwon').mp hf') hwon hwon'
  created t pc hf hwon := by
    rw [hcreated]
    exact h.created t pc ((hframe t pc hwon).mp hf) hwon
  complete hr := by
    rw [hcreated]
    refine (h.complete fun hs => hr (hready.mpr hs)).imp id ?_
    rintro ⟨t, pc, hf, hwon⟩
    exact ⟨t, pc, (hframe t pc hwon).mpr hf, hwon⟩

/-- The thread `u` is in the frame `g` after `t` has moved to `f`. -/
theorem update_frame_iff {u : Tid τ} {f : Option Frame} {g : Frame} :
    Function.update s.frame t f u = some g ↔
      (u = t ∧ f = some g) ∨ (u ≠ t ∧ s.frame u = some g) := by
  rcases eq_or_ne u t with rfl | hu
  · simp
  · simp [hu]

/-- A thread stays where it is when one that is elsewhere moves. -/
theorem update_frame_of_frame {u : Tid τ} {f : Option Frame} {g : Frame}
    (hu : s.frame u = some g) (ht : s.frame t ≠ some g) :
    Function.update s.frame t f u = some g := by
  have hne : u ≠ t := by
    rintro rfl
    exact ht hu
  rw [Function.update_of_ne hne, hu]

/-- A thread that is not where another has moved to was there before. -/
theorem frame_of_update_frame {u : Tid τ} {f : Option Frame} {g : Frame}
    (hu : Function.update s.frame t f u = some g) (hf : f ≠ some g) : s.frame u = some g := by
  rcases update_frame_iff.mp hu with ⟨-, heq⟩ | ⟨-, hu'⟩
  · exact absurd heq hf
  · exact hu'

/-- A thread that has not won moves, and has not won afterwards. -/
theorem won_run_iff {f : Option Frame} (hframe : s'.frame = Function.update s.frame t f)
    (hold : ∀ pc, s.frame t = some (.runWhile pc) → ¬ pc.Won)
    (hnew : ∀ pc, f = some (.runWhile pc) → ¬ pc.Won) (u : Tid τ) (pc : RunPc) (hwon : pc.Won) :
    s'.frame u = some (.runWhile pc) ↔ s.frame u = some (.runWhile pc) := by
  rw [hframe, update_frame_iff]
  constructor
  · rintro (⟨-, hf⟩ | ⟨-, hu⟩)
    · exact absurd hwon (hnew pc hf)
    · exact hu
  · intro hu
    refine Or.inr ⟨?_, hu⟩
    rintro rfl
    exact hold pc hu hwon

/-- The winner moves on, creating one thread or none. -/
theorem RunOk.move (h : s.RunOk) {pc pc' : RunPc} (hf : s.frame t = some (.runWhile pc))
    (hframe : s'.frame = Function.update s.frame t (some (.runWhile pc')))
    (hstate : s'.state = s.state) (hwon : pc.Won) (hwon' : pc'.Won)
    (hcreated : s'.created = pc'.created) (hle : s'.created ≤ cfg.nThreads) : s'.RunOk := by
  -- nobody else has won
  have honly : ∀ u qc, s'.frame u = some (.runWhile qc) → qc.Won → u = t ∧ qc = pc' := by
    intro u qc hu hq
    rw [hframe, update_frame_iff] at hu
    rcases hu with ⟨rfl, heq⟩ | ⟨hne, hu⟩
    · cases heq
      exact ⟨rfl, rfl⟩
    · exact absurd (h.unique u t qc pc hu hf hq hwon) hne
  constructor
  · intro hr
    rw [hstate] at hr
    exact absurd hwon ((h.ready hr).2 t pc hf)
  · intro u v qc qc' hu hv hq hq'
    rw [(honly u qc hu hq).1, (honly v qc' hv hq').1]
  · intro u qc hu hq
    obtain ⟨-, rfl⟩ := honly u qc hu hq
    exact ⟨hcreated, hle⟩
  · intro _
    refine Or.inr ⟨t, pc', ?_, hwon'⟩
    rw [hframe, Function.update_self]

theorem RunOk.runStep (h : s.RunOk) {pc : RunPc} (hf : s.frame t = some (.runWhile pc))
    (hs : RunStep s t pc s') : s'.RunOk := by
  have hother : ¬ pc.Won → ∀ qc, s.frame t = some (.runWhile qc) → ¬ qc.Won := by
    intro hnot qc hq
    rw [hf] at hq
    cases hq
    exact hnot
  cases hs with
  | lock | lose | giveUp =>
    refine h.of_same Iff.rfl rfl (won_run_iff rfl (hother (by simp)) fun qc hq => ?_)
    cases hq <;> simp
  | win hready =>
    obtain ⟨hzero, hnone⟩ := h.ready hready
    -- nobody had won before
    have honly : ∀ u qc, Function.update s.frame t (some (.runWhile (.unlocking true))) u =
        some (.runWhile qc) → qc.Won → u = t ∧ qc = .unlocking true := by
      intro u qc hu hq
      rw [update_frame_iff] at hu
      rcases hu with ⟨rfl, heq⟩ | ⟨-, hu⟩
      · cases heq
        exact ⟨rfl, rfl⟩
      · exact absurd hq (hnone u qc hu)
    constructor
    · intro hr
      cases hr
    · intro u v qc qc' hu hv hq hq'
      rw [(honly u qc hu hq).1, (honly v qc' hv hq').1]
    · intro u qc hu hq
      obtain ⟨-, rfl⟩ := honly u qc hu hq
      exact ⟨hzero, Nat.le_trans (Nat.le_of_eq hzero) (Nat.zero_le _)⟩
    · exact fun _ => Or.inr ⟨t, .unlocking true, Function.update_self .., by simp⟩
  | unlock =>
    obtain ⟨hc, hle⟩ := h.created t _ hf (by simp)
    exact h.move hf rfl rfl (by simp) (by simp) hc hle
  | @spawn i hi =>
    obtain ⟨hc, -⟩ := h.created t _ hf (by simp)
    have hc' : s.created + 1 = i + 1 := by rw [hc, RunPc.created]
    exact h.move hf rfl rfl (by simp) (by simp) hc' (Nat.le_trans (Nat.le_of_eq hc') hi)
  | store =>
    obtain ⟨hc, hle⟩ := h.created t _ hf (by simp)
    exact h.move hf rfl rfl (by simp) (by simp) hc hle
  | @done i hi =>
    obtain ⟨hc, hle⟩ := h.created t _ hf (by simp)
    have hall : s.created = cfg.nThreads := by
      have hi' : s.created = i := hc
      omega
    have hnone : ∀ u qc, (s.setFrame t none).frame u = some (.runWhile qc) → ¬ qc.Won := by
      intro u qc hu hq
      rcases update_frame_iff.mp hu with ⟨-, heq⟩ | ⟨hne, hu⟩
      · cases heq
      · exact hne (h.unique u t qc _ hu hf hq (by simp))
    constructor
    · exact fun hr => ⟨(h.ready hr).1, hnone⟩
    · exact fun u v qc qc' hu _ hq _ => absurd hq (hnone u qc hu)
    · exact fun u qc hu hq => absurd hq (hnone u qc hu)
    · exact fun _ => Or.inl hall

theorem RunOk.step (h : s.RunOk) (hs : LifeStep s a s') : s'.RunOk := by
  cases hs with
  | same hsame =>
    exact h.of_same (by rw [hsame.state]) hsame.created fun t pc _ => hsame.run t pc
  | callRun hidle =>
    refine h.of_same Iff.rfl rfl (won_run_iff rfl (fun qc hq => ?_) fun qc hq => ?_)
    · rw [hidle] at hq
      cases hq
    · cases hq
      simp
  | callStop hidle hframe hstate _ hcreated =>
    refine h.of_same (by rw [hstate]) hcreated
      (won_run_iff hframe (fun qc hq => ?_) fun qc hq => ?_)
    · rw [hidle] at hq
      cases hq
    · cases hq
  | runWhile hf hrun => exact h.runStep hf hrun
  | stop hf hstop =>
    have hold : ∀ qc, s.frame _ = some (.runWhile qc) → ¬ qc.Won := fun qc hq => by
      rw [hf] at hq
      cases hq
    cases hstop with
    | yield | selfJoin | abort => exact h.of_same Iff.rfl rfl fun _ _ _ => Iff.rfl
    | win hrun =>
      exact h.of_same (by simp [hrun]) rfl (won_run_iff rfl hold fun qc hq => by cases hq)
    | publish hdown =>
      exact h.of_same (by simp [hdown]) rfl (won_run_iff rfl hold fun qc hq => by cases hq)
    | lose | giveUp | proceed | halt | range | join | joined | clear | lock | keep | swap | unlock
    | done | notify | resume | reenter | relock | reaccept | rerefuse | repush | reunlock =>
      exact h.of_same Iff.rfl rfl (won_run_iff rfl hold fun qc hq => by cases hq)

theorem runOk_of_reachable (h : (contextSystem cfg τ).Reachable s) : s.RunOk := by
  refine h.invariant ?_ fun _ _ _ _ hI _ hs => hI.step (lifeStep_of_step (step_spec hs).2)
  rintro _ rfl
  exact runOk_initial

/-! ### Who shuts down -/

/-- At most one `stop` has made the change to `ShuttingDown`, and it alone makes that to
`Stopped`. -/
structure StopOk (s : State cfg τ) : Prop where
  draining : ∀ t pc, s.frame t = some (.stop pc) → pc.Draining → s.state = .ShuttingDown
  published : ∀ t pc, s.frame t = some (.stop pc) → pc.Won → ¬ pc.Draining → s.state = .Stopped
  unique : ∀ t u pc pc', s.frame t = some (.stop pc) → s.frame u = some (.stop pc') →
    pc.Won → pc'.Won → t = u
  down : s.state = .ShuttingDown → ∃ t pc, s.frame t = some (.stop pc) ∧ pc.Draining

omit [DecidableEq τ] in
theorem stopOk_initial : (initial : State cfg τ).StopOk where
  draining _ _ h := by cases h
  published _ _ h := by cases h
  unique _ _ _ _ h := by cases h
  down h := by cases h

omit [DecidableEq τ] in
/-- Steps of others keep `StopOk`. -/
theorem StopOk.of_same (h : s.StopOk) (hdown : s'.state = .ShuttingDown ↔ s.state = .ShuttingDown)
    (hstopped : s'.state = .Stopped ↔ s.state = .Stopped)
    (hframe : ∀ t pc, StopPc.Won pc →
      (s'.frame t = some (.stop pc) ↔ s.frame t = some (.stop pc))) : s'.StopOk where
  draining t pc hf hd := hdown.mpr (h.draining t pc ((hframe t pc hd.won).mp hf) hd)
  published t pc hf hwon hd := hstopped.mpr (h.published t pc ((hframe t pc hwon).mp hf) hwon hd)
  unique t u pc pc' hf hf' hwon hwon' :=
    h.unique t u pc pc' ((hframe t pc hwon).mp hf) ((hframe u pc' hwon').mp hf') hwon hwon'
  down hd := by
    obtain ⟨t, pc, hf, hdr⟩ := h.down (hdown.mp hd)
    exact ⟨t, pc, (hframe t pc hdr.won).mpr hf, hdr⟩

/-- A thread that has not won moves, and has not won afterwards. -/
theorem won_stop_iff {f : Option Frame} (hframe : s'.frame = Function.update s.frame t f)
    (hold : ∀ pc, s.frame t = some (.stop pc) → ¬ pc.Won)
    (hnew : ∀ pc, f = some (.stop pc) → ¬ pc.Won) (u : Tid τ) (pc : StopPc) (hwon : pc.Won) :
    s'.frame u = some (.stop pc) ↔ s.frame u = some (.stop pc) := by
  rw [hframe, update_frame_iff]
  constructor
  · rintro (⟨-, hf⟩ | ⟨-, hu⟩)
    · exact absurd hwon (hnew pc hf)
    · exact hu
  · intro hu
    refine Or.inr ⟨?_, hu⟩
    rintro rfl
    exact hold pc hu hwon

omit [DecidableEq τ] in
/-- The winner is the only `stop` past the change to `ShuttingDown`. -/
theorem StopOk.of_only (t : Tid τ) (pc : StopPc) (hf : s.frame t = some (.stop pc)) (hwon : pc.Won)
    (honly : ∀ u qc, s.frame u = some (.stop qc) → qc.Won → u = t)
    (hstate : s.state = if pc.Draining then .ShuttingDown else .Stopped) : s.StopOk := by
  have hpc : ∀ u qc, s.frame u = some (.stop qc) → qc.Won → qc = pc := by
    intro u qc hu hq
    obtain rfl := honly u qc hu hq
    rw [hf] at hu
    cases hu
    rfl
  constructor
  · intro u qc hu hq
    obtain rfl := hpc u qc hu hq.won
    rw [hstate, if_pos hq]
  · intro u qc hu hq hd
    obtain rfl := hpc u qc hu hq
    rw [hstate, if_neg hd]
  · intro u v qc qc' hu hv hq hq'
    rw [honly u qc hu hq, honly v qc' hv hq']
  · intro hdown
    refine ⟨t, pc, hf, ?_⟩
    by_contra hd
    rw [hstate, if_neg hd] at hdown
    cases hdown

/-- After a step of the winner, it is still the only one. -/
theorem StopOk.move (h : s.StopOk) {pc pc' : StopPc} (hf : s.frame t = some (.stop pc))
    (hframe : s'.frame = Function.update s.frame t (some (.stop pc'))) (hwon : pc.Won)
    (hwon' : pc'.Won) (hstate : s'.state = if pc'.Draining then .ShuttingDown else .Stopped) :
    s'.StopOk := by
  refine .of_only t pc' (by rw [hframe, Function.update_self]) hwon' (fun u qc hu hq => ?_) hstate
  rw [hframe, update_frame_iff] at hu
  rcases hu with ⟨rfl, -⟩ | ⟨hne, hu⟩
  · rfl
  · exact h.unique u t qc pc hu hf hq hwon

theorem StopOk.stopStep (h : s.StopOk) {pc : StopPc} (hf : s.frame t = some (.stop pc))
    (hs : StopStep s t pc s') : s'.StopOk := by
  cases hs with
  | yield | selfJoin | abort => exact h.of_same Iff.rfl Iff.rfl fun _ _ _ => Iff.rfl
  | win hrun =>
    refine .of_only t .waiting (Function.update_self ..) trivial (fun u qc hu hq => ?_) rfl
    rcases update_frame_iff.mp hu with ⟨rfl, -⟩ | ⟨-, hu⟩
    · rfl
    · -- while the state is `Running` nobody has won
      by_cases hd : qc.Draining
      · exact absurd (h.draining u qc hu hd) (by simp [hrun])
      · exact absurd (h.published u qc hu hq hd) (by simp [hrun])
  | lose | giveUp =>
    refine h.of_same Iff.rfl Iff.rfl (won_stop_iff rfl (fun qc hq => ?_) fun qc hq => ?_)
    · rw [hf] at hq
      cases hq
      simp
    · cases hq <;> simp
  | proceed | halt | range | join | joined | clear | lock =>
    exact h.move hf rfl trivial trivial (h.draining t _ hf trivial)
  | publish => exact h.move hf rfl trivial trivial rfl
  | keep hnot => exact absurd (h.draining t _ hf trivial) hnot
  | swap | unlock | notify
  | resume | reenter | relock | reaccept | rerefuse | repush | reunlock =>
    exact h.move hf rfl trivial trivial (h.published t _ hf trivial id)
  | done =>
    have hstate := h.published t _ hf trivial id
    have hnone : ∀ u qc, (s.setFrame t none).frame u = some (.stop qc) → ¬ qc.Won := by
      intro u qc hu hq
      rcases update_frame_iff.mp hu with ⟨-, heq⟩ | ⟨hne, hu⟩
      · cases heq
      · exact hne (h.unique u t qc _ hu hf hq trivial)
    constructor
    · exact fun u qc hu hq => absurd hq.won (hnone u qc hu)
    · exact fun u qc hu hq => absurd hq (hnone u qc hu)
    · exact fun u v qc qc' hu _ hq _ => absurd hq (hnone u qc hu)
    · intro hdown
      exact absurd (hstate.symm.trans hdown) (by simp)

theorem StopOk.step (h : s.StopOk) (hs : LifeStep s a s') : s'.StopOk := by
  cases hs with
  | same hsame =>
    exact h.of_same (by rw [hsame.state]) (by rw [hsame.state]) fun t pc _ => hsame.stop t pc
  | callRun hidle =>
    refine h.of_same Iff.rfl Iff.rfl (won_stop_iff rfl (fun qc hq => ?_) fun qc hq => ?_)
    · rw [hidle] at hq
      cases hq
    · cases hq
  | callStop hidle hframe hstate =>
    refine h.of_same (by rw [hstate]) (by rw [hstate])
      (won_stop_iff hframe (fun qc hq => ?_) fun qc hq => ?_)
    · rw [hidle] at hq
      cases hq
    · cases hq
      simp
  | runWhile hf hrun =>
    have hold : ∀ qc, s.frame _ = some (.stop qc) → ¬ qc.Won := fun qc hq => by
      rw [hf] at hq
      cases hq
    cases hrun with
    | win hready =>
      exact h.of_same (by simp [hready]) (by simp [hready])
        (won_stop_iff rfl hold fun qc hq => by cases hq)
    | lock | lose | unlock | giveUp | spawn | store | done =>
      exact h.of_same Iff.rfl Iff.rfl (won_stop_iff rfl hold fun qc hq => by cases hq)
  | stop hf hstop => exact h.stopStep hf hstop

theorem stopOk_of_reachable (h : (contextSystem cfg τ).Reachable s) : s.StopOk := by
  refine h.invariant ?_ fun _ _ _ _ hI _ hs => hI.step (lifeStep_of_step (step_spec hs).2)
  rintro _ rfl
  exact stopOk_initial

/-! ### Kinds of runs -/

/-- The `run_while` that made the change to `Running` is over. -/
def RunReturned (s : State cfg τ) : Prop :=
  s.state ≠ .Ready ∧ ∀ t pc, s.frame t = some (.runWhile pc) → ¬ pc.Won

/-- `run_while` is called once. -/
def OneRun (s : State cfg τ) : Act τ → Prop
  | .call _ .runWhile => s.state = .Ready ∧ ∀ t pc, s.frame t ≠ some (.runWhile pc)
  | _ => True

/-- No worker calls `stop`. -/
def ClientStops (s : State cfg τ) (a : Act τ) : Prop := ∀ w, s.stopCaller a ≠ some (.worker w)

/-- `stop` is called after `run_while` has returned. -/
def StopsAfterRun (s : State cfg τ) (a : Act τ) : Prop :=
  ∀ t, s.stopCaller a = some t → s.RunReturned

omit [DecidableEq τ] in
/-- All threads have been created when `run_while` has returned. -/
theorem RunOk.created_of_returned (h : s.RunOk) (hret : s.RunReturned) :
    s.created = cfg.nThreads := by
  refine (h.complete hret.1).resolve_right ?_
  rintro ⟨t, pc, hf, hwon⟩
  exact hret.2 t pc hf hwon

/-- A `run_while` that has returned stays so. -/
theorem RunReturned.step (h : s.RunReturned) (hs : LifeStep s a s') : s'.RunReturned := by
  obtain ⟨hstate, hnone⟩ := h
  -- a thread moves that is in no winning `run_while` afterwards
  have hmove : ∀ {t f}, s'.frame = Function.update s.frame t f →
      (∀ pc, f = some (.runWhile pc) → ¬ pc.Won) →
      ∀ u pc, s'.frame u = some (.runWhile pc) → ¬ pc.Won := by
    intro t f hframe hf u pc hu
    rw [hframe, update_frame_iff] at hu
    rcases hu with ⟨-, heq⟩ | ⟨-, hu⟩
    · exact hf pc heq
    · exact hnone u pc hu
  cases hs with
  | same hsame =>
    exact ⟨hsame.state ▸ hstate, fun t pc hf => hnone t pc ((hsame.run t pc).mp hf)⟩
  | callRun =>
    refine ⟨hstate, hmove rfl fun pc hf => ?_⟩
    cases hf
    simp
  | callStop _ hframe hst =>
    exact ⟨hst ▸ hstate, hmove hframe fun pc hf => by cases hf⟩
  | @runWhile t pc _ _ hf hrun =>
    have hpc : ¬ pc.Won := hnone t pc hf
    cases hrun with
    | win hready => exact absurd hready hstate
    | lock | lose | giveUp =>
      refine ⟨hstate, hmove rfl fun pc hf => ?_⟩
      cases hf <;> simp
    | unlock | spawn | store | done => exact absurd trivial hpc
  | stop hf hstop =>
    cases hstop with
    | yield | selfJoin | abort => exact ⟨hstate, hnone⟩
    | win => exact ⟨by simp, hmove rfl fun pc hf => by cases hf⟩
    | publish => exact ⟨by simp, hmove rfl fun pc hf => by cases hf⟩
    | lose | giveUp | proceed | halt | range | join | joined | clear | lock | keep | swap | unlock
    | done | notify | resume | reenter | relock | reaccept | rerefuse | repush | reunlock =>
      exact ⟨hstate, hmove rfl fun pc hf => by cases hf⟩

/-- When `stop` is called only after `run_while` has returned, every `stop` runs after it. -/
theorem returned_of_stop (h : (contextSystem cfg τ).ReachableUnder StopsAfterRun s) {pc : StopPc}
    (hf : s.frame t = some (.stop pc)) : s.RunReturned := by
  have hinv : (∃ t pc, s.frame t = some (.stop pc)) → s.RunReturned := by
    refine h.invariant (I := fun u => (∃ t pc, u.frame t = some (.stop pc)) → u.RunReturned) ?_
      fun u a u' _ hI hP hs => ?_
    · rintro _ rfl ⟨_, _, hf⟩
      cases hf
    · have hlife := lifeStep_of_step (step_spec hs).2
      rintro ⟨t, pc, hf⟩
      by_cases hold : ∃ t pc, u.frame t = some (.stop pc)
      · exact (hI hold).step hlife
      · -- the call itself
        have hret : u.RunReturned := by
          have hnew : ∀ {t' f}, u'.frame = Function.update u.frame t' f →
              f = some (.stop pc) := by
            intro t' f hframe
            rw [hframe, update_frame_iff] at hf
            rcases hf with ⟨-, heq⟩ | ⟨-, hf⟩
            · exact heq
            · exact absurd ⟨t, pc, hf⟩ hold
          cases hlife with
          | same hsame => exact absurd ⟨t, pc, (hsame.stop t pc).mp hf⟩ hold
          | callRun => cases hnew rfl
          | callStop _ _ _ _ _ _ hcaller => exact hP _ hcaller
          | runWhile _ hrun => cases hrun <;> cases hnew rfl
          | stop hu => exact absurd ⟨_, _, hu⟩ hold
        exact hret.step hlife
  exact hinv ⟨t, pc, hf⟩

end State

end Sgrpc
