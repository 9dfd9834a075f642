import Sgrpc.Context.Completion
import Sgrpc.Context.Thunks

/-!
# One client: every accepted thunk is executed

While a client posts, it does not stop, and no worker has left its loop; a worker that posts has
not begun to drain the task queue. So whoever stores a thunk leaves a worker behind that will still
sweep the sub-queue (`CoverOk`), and when all workers have been joined every thunk that was
accepted has been executed (`executed_of_stopped`). Two clients may lose a thunk: one stores it
behind the last sweep, the other stops.
-/

namespace Sgrpc

open Interleaving
open AtomicTaskStealingQueue (PushStep PopStep EjectStep)

/-- The `push` has read `is_done_ == false` and not yet stored its thunk. -/
def PushPc.Accepted : PushPc Thunk → Prop
  | .next _ | .probe _ _ _ => True
  | _ => False

/-- The worker has called `stop_and_eject`. -/
def WorkerPc.Ejecting : WorkerPc → Prop
  | .draining .idle => False
  | .draining _ | .executing _ | .exited => True
  | _ => False

/-- The worker will take what is in sub-queue `j`, if nobody else does. -/
def WorkerPc.Sweeps (j : ℕ) : WorkerPc → Prop
  | .draining (.sweep i _) => i ≤ j
  | .draining (.returned _) | .executing _ | .exited => False
  | _ => True

theorem WorkerPc.sweeps_of_not_ejecting {pc : WorkerPc} (hpc : ¬ pc.Ejecting) (j : ℕ) :
    pc.Sweeps j := by
  unfold Sweeps
  split <;> first | trivial | exact absurd trivial hpc

namespace State

variable {cfg : Config} {τ : Type*} [DecidableEq τ] {s s' : State cfg τ} {a : Act τ} {t : Tid τ}
  {w : ℕ}

/-! ### Draining the task queue -/

/-- What a step of a worker that leads from `pc` to `pc'` does to the task queue. -/
structure DrainStep (s s' : State cfg τ) (pc pc' : WorkerPc) : Prop where
  isDone : s.taskQueue.isDone = true → s'.taskQueue.isDone = true
  ejecting : pc'.Ejecting → pc.Ejecting ∨ s'.taskQueue.isDone = true
  queues : ∀ j, s'.taskQueue.queues j ≠ [] → s.taskQueue.queues j ≠ []
  sweeps : ∀ j < cfg.nTaskQueues, s'.taskQueue.queues j ≠ [] → pc.Sweeps j → pc'.Sweeps j

omit [DecidableEq τ] in
/-- Steps that leave the sub-queues alone and do not drain. -/
theorem DrainStep.of_same {pc pc' : WorkerPc}
    (hqueues : s'.taskQueue.queues = s.taskQueue.queues)
    (hdone : s'.taskQueue.isDone = s.taskQueue.isDone) (hpc : ¬ pc'.Ejecting) :
    DrainStep s s' pc pc' where
  isDone hd := hdone ▸ hd
  ejecting hpc' := absurd hpc' hpc
  queues _ hj := hqueues ▸ hj
  sweeps _ _ _ _ := WorkerPc.sweeps_of_not_ejecting hpc _

theorem taskQueue_completeStep (s : State cfg τ) (w k i : ℕ) (c : PassCounts)
    (what : Completion) :
    (s.completeStep w k i c what).taskQueue.queues = s.taskQueue.queues ∧
      (s.completeStep w k i c what).taskQueue.isDone = s.taskQueue.isDone := by
  rcases what with ⟨⟨id⟩ | ⟨id⟩ | ⟨h⟩, isOk⟩ | ⟨h, isOk, _ | _ | _⟩
  · exact ⟨rfl, rfl⟩
  · exact ⟨rfl, rfl⟩
  · exact ⟨rfl, rfl⟩
  · simp only [completeStep]
    obtain ⟨cq, handler, nextHandler, harm⟩ := arm_eq s (s.handler h).cq (s.handler h).immediate
    rw [harm]
    split <;> exact ⟨rfl, rfl⟩
  · simp only [completeStep]
    split <;> exact ⟨rfl, rfl⟩
  · exact ⟨rfl, rfl⟩

omit [DecidableEq τ] in
theorem taskQueue_execute {f : Thunk} {throws : Bool} {work : WorkEnd} {pc : WorkerPc} :
    ((s.execute f throws work).setWorker w pc).taskQueue = s.taskQueue := by
  obtain ⟨cq, suspended, hexec⟩ := execute_eq s f throws work
  rw [hexec]
  rfl

theorem drainStep_of_loopStep {pc : WorkerPc} {answer : WorkAnswer}
    (h : LoopStep s w answer pc s') :
    ∃ pc', s'.worker = Function.update s.worker w pc' ∧ DrainStep s s' pc pc' := by
  cases h with
  | complete =>
    obtain ⟨hqueues, hdone⟩ := taskQueue_completeStep s w _ _ _ _
    obtain ⟨pc', hpc', rfl | ⟨what', rfl⟩⟩ := worker_completeStep s w _ _ _ _
    · exact ⟨_, hpc', .of_same hqueues hdone id⟩
    · exact ⟨_, hpc', .of_same hqueues hdone id⟩
  | run =>
    exact ⟨_, worker_execute, .of_same (by rw [taskQueue_execute]) (by rw [taskQueue_execute]) id⟩
  | executeNext =>
    refine ⟨_, worker_execute, ⟨fun hd => ?_, fun _ => Or.inl trivial, fun j hj => ?_,
      fun _ _ _ hsweeps => absurd hsweeps id⟩⟩
    · rwa [taskQueue_execute]
    · rwa [taskQueue_execute] at hj
  | pop hpop =>
    cases hpop with
    | giveUp | skip => exact ⟨_, rfl, .of_same rfl rfl id⟩
    | @take x o i j f rest _ _ hfront =>
      refine ⟨_, rfl, ⟨fun hd => hd, fun hpc => absurd hpc id, fun k hk => ?_,
        fun _ _ _ _ => trivial⟩⟩
      have hk' : Function.update s.taskQueue.queues j rest k ≠ [] := hk
      rcases eq_or_ne k j with rfl | hne
      · rw [hfront]
        simp
      · rwa [Function.update_of_ne hne] at hk'
  | ejectCall =>
    exact ⟨_, rfl, fun _ => rfl, fun _ => Or.inr rfl, fun j hj => hj, fun j _ _ _ => Nat.zero_le j⟩
  | eject hej =>
    cases hej with
    | again =>
      exact ⟨_, rfl, fun hd => hd, fun _ => Or.inl trivial, fun j hj => hj,
        fun j _ _ _ => Nat.zero_le j⟩
    | finish =>
      -- the sweep has come to the end
      refine ⟨_, rfl, fun hd => hd, fun _ => Or.inl trivial, fun j hj => hj,
        fun j hj _ hsweeps => ?_⟩
      exact absurd hj (Nat.not_lt.mpr hsweeps)
    | @swap i acc hi =>
      have hne : ∀ j, Function.update s.taskQueue.queues i [] j ≠ [] → j ≠ i := by
        rintro j hj rfl
        exact hj (Function.update_self ..)
      refine ⟨_, rfl, fun hd => hd, fun _ => Or.inl trivial, fun j hj => ?_,
        fun j _ hj hsweeps => ?_⟩
      · have hj' : Function.update s.taskQueue.queues i [] j ≠ [] := hj
        rwa [Function.update_of_ne (hne j hj)] at hj'
      · exact Nat.lt_of_le_of_ne hsweeps (hne j hj).symm
  | ejected | exit =>
    exact ⟨_, rfl, fun hd => hd, fun _ => Or.inl trivial, fun j hj => hj,
      fun _ _ _ hsweeps => absurd hsweeps id⟩
  | stop | pass | stopped | pollNone | pollShutdown | pollEvent | nextSet | polled | leave | stay
  | popCall | popped | missed => exact ⟨_, rfl, .of_same rfl rfl id⟩

/-- What a step does to the task queue: nothing that matters here, a step of a `push`, or a step of
a worker. -/
theorem taskQueue_of_step (h : Step s a s') :
    (s'.worker = s.worker ∧ s'.taskQueue.queues = s.taskQueue.queues ∧
        s'.taskQueue.isDone = s.taskQueue.isDone) ∨
      (∃ t f pc q' pc' ev, s.frame t = some (.push f pc) ∧ PushStep s.taskQueue pc q' pc' ev ∧
        s' = s.afterPush t f q' pc' ev) ∨
      ∃ w answer, LoopStep s w answer (s.worker w) s' := by
  cases h with
  | @call t c =>
    left
    cases c with
    | postAt | resume =>
      simp only [begin]
      split <;> exact ⟨rfl, rfl, rfl⟩
    | makeServer wired =>
      obtain ⟨cq, handler, nextHandler, hwire⟩ := wire_eq s s.nextId 0 wired
      simp only [begin, beginAttach, hwire]
      split <;> exact ⟨rfl, rfl, rfl⟩
    | _ => exact ⟨rfl, rfl, rfl⟩
  | push hf hpush => exact Or.inr (Or.inl ⟨_, _, _, _, _, _, hf, hpush, rfl⟩)
  | @post _ _ _ pc answer =>
    left
    rcases answer with ⟨slot, _ | _, reenters⟩ <;> rcases pc with - | (_ | _) | i | can <;>
      exact ⟨rfl, rfl, rfl⟩
  | runWhile _ hrun =>
    left
    cases hrun <;> exact ⟨rfl, rfl, rfl⟩
  | stop _ hstop =>
    left
    cases hstop <;> exact ⟨rfl, rfl, rfl⟩
  | attach _ hat =>
    left
    cases hat <;> exact ⟨rfl, rfl, rfl⟩
  | notify _ hnot =>
    left
    cases hnot <;> exact ⟨rfl, rfl, rfl⟩
  | @workEnd t h answer =>
    left
    obtain ⟨cq, hend⟩ := workEndStep_eq s t h answer.stopped
    rw [hend]
    exact ⟨rfl, rfl, rfl⟩
  | fatal => exact Or.inl ⟨rfl, rfl, rfl⟩
  | @work w pc answer _ _ _ hpc hloop => exact Or.inr (Or.inr ⟨w, answer, hpc ▸ hloop⟩)

omit [DecidableEq τ] in
theorem worker_afterPush [DecidableEq τ] (s : State cfg τ) (t : Tid τ) (f : Thunk)
    (q : AtomicTaskStealingQueue Thunk cfg.nTaskQueues) (pc : PushPc Thunk)
    (ev : List (QueueEvent Thunk)) :
    (s.afterPush t f q pc ev).worker = s.worker ∧ (s.afterPush t f q pc ev).taskQueue = q := by
  cases pc <;> exact ⟨rfl, rfl⟩

/-- Whoever has called `stop_and_eject` has set `is_done_`. -/
def EjectOk (s : State cfg τ) : Prop :=
  ∀ w, (s.worker w).Ejecting → s.taskQueue.isDone = true

theorem EjectOk.step (h : s.EjectOk) (hs : Step s a s') : s'.EjectOk := by
  intro v hv
  rcases taskQueue_of_step hs with ⟨hworker, -, hdone⟩ | ⟨t, f, pc, q', pc', ev, -, hpush, rfl⟩ |
    ⟨w, answer, hloop⟩
  · rw [hdone]
    exact h v (hworker ▸ hv)
  · obtain ⟨hworker, htask⟩ := worker_afterPush s t f q' pc' ev
    rw [htask]
    have hd := h v (hworker ▸ hv)
    cases hpush <;> exact hd
  · obtain ⟨pc', hworker, hdrain⟩ := drainStep_of_loopStep hloop
    rw [hworker] at hv
    rcases eq_or_ne v w with rfl | hne
    · rw [Function.update_self] at hv
      exact (hdrain.ejecting hv).elim (fun hw => hdrain.isDone (h v hw)) id
    · rw [Function.update_of_ne hne] at hv
      exact hdrain.isDone (h v hv)

theorem ejectOk_of_reachable (h : (contextSystem cfg τ).Reachable s) : s.EjectOk := by
  refine h.invariant ?_ fun _ _ _ _ hI _ hs => hI.step (step_spec hs).2
  rintro _ rfl w hw
  cases hw

/-- No worker drains the task queue before some `stop` has found `within_cq_post_ == 0`. -/
theorem halted_of_ejecting (h : (contextSystem cfg τ).Reachable s) (hw : (s.worker w).Ejecting) :
    s.Halted := by
  have hpass := passOk_of_reachable h w
  have hexhausted : s.OwnExhausted w cfg.nCqs := by
    cases hpc : s.worker w with
    | draining | executing | exited =>
      rw [hpc] at hpass
      exact hpass
    | top | stopping | polling | completing | checking | popping | running =>
      rw [hpc] at hw
      exact absurd hw id
  exact (haltOk_of_reachable h).shut _ (hexhausted 0 cfg.nCqs_pos).1

/-! ### Who has been accepted -/

/-- A `push` that has been accepted was so before, or finds the queue open now. -/
theorem ThunkStep.accepted (hs : ThunkStep s s') {f : Thunk} {pc : PushPc Thunk}
    (hf : s'.frame t = some (.push f pc)) (hpc : pc.Accepted) :
    ∃ pc₀, s.frame t = some (.push f pc₀) ∧ (pc₀.Accepted ∨ s.taskQueue.isDone = false) := by
  cases hs with
  | same hsame | collect hsame | execute hsame =>
    exact ⟨pc, (hsame.push t f pc).mp hf, Or.inl hpc⟩
  | call _ _ hframe =>
    rw [hframe, update_frame_iff] at hf
    rcases hf with ⟨-, heq⟩ | ⟨-, hf⟩
    · cases heq
      exact absurd hpc id
    · exact ⟨pc, hf, Or.inl hpc⟩
  | @push u g pc₀ pc' q' ev hg hpush =>
    have hmove : ∀ {fr}, (s.afterPush u g q' pc' ev).frame = Function.update s.frame u fr →
        (∀ f pc, fr = some (.push f pc) → pc.Accepted →
          f = g ∧ (pc₀.Accepted ∨ s.taskQueue.isDone = false)) →
        ∃ pc₀, s.frame t = some (.push f pc₀) ∧
          (pc₀.Accepted ∨ s.taskQueue.isDone = false) := by
      intro fr hframe hnew
      rw [hframe, update_frame_iff] at hf
      rcases hf with ⟨rfl, heq⟩ | ⟨-, hf⟩
      · obtain ⟨rfl, hacc⟩ := hnew f pc heq hpc
        exact ⟨pc₀, hg, hacc⟩
      · exact ⟨pc, hf, Or.inl hpc⟩
    cases hpush with
    | accept hopen =>
      refine hmove rfl fun f pc heq _ => ?_
      cases heq
      exact ⟨rfl, Or.inr hopen⟩
    | fetch | wrap | busy =>
      refine hmove rfl fun f pc heq _ => ?_
      cases heq
      exact ⟨rfl, Or.inl trivial⟩
    | refuse | store | throw | leave =>
      refine hmove rfl fun f pc heq hacc => ?_
      cases heq <;> exact absurd hacc id

/-- A worker is in no `stop` when only clients call it. -/
theorem not_stop_of_clientStops (h : (contextSystem cfg τ).ReachableUnder ClientStops s) (w : ℕ)
    (pc : StopPc) : s.frame (.worker w) ≠ some (.stop pc) := by
  have hinv : ∀ w pc, s.frame (.worker w) ≠ some (.stop pc) := by
    refine h.invariant (I := fun u => ∀ w pc, u.frame (.worker w) ≠ some (.stop pc)) ?_
      fun u a u' _ hI hP hs w pc hf => ?_
    · rintro _ rfl w pc hf
      cases hf
    · cases lifeStep_of_step (step_spec hs).2 with
      | same hsame => exact hI w pc ((hsame.stop _ _).mp hf)
      | callRun =>
        exact hI w pc (frame_of_update_frame hf (by simp))
      | callStop _ hframe _ _ _ _ hcaller =>
        rw [hframe, update_frame_iff] at hf
        rcases hf with ⟨rfl, -⟩ | ⟨-, hf⟩
        · exact hP w hcaller
        · exact hI w pc hf
      | runWhile _ hrun =>
        cases hrun <;> exact hI w pc (frame_of_update_frame hf (by simp))
      | @stop v pc' _ _ hv hstop =>
        have hmove : ∀ {fr}, u'.frame = Function.update u.frame v fr → False := by
          intro fr hframe
          rw [hframe, update_frame_iff] at hf
          rcases hf with ⟨rfl, -⟩ | ⟨-, hf⟩
          · exact hI w pc' hv
          · exact hI w pc hf
        cases hstop with
        | yield | selfJoin | abort => exact hI w pc hf
        | win | lose | giveUp | proceed | halt | range | join | joined | clear | lock | publish
        | keep | swap | unlock | done | notify
        | resume | reenter | relock | reaccept | rerefuse | repush | reunlock => exact hmove rfl
  exact hinv w pc

/-! ### Who will sweep -/

omit [DecidableEq τ] in
/-- Not more threads are created than the constructor was told. -/
theorem RunOk.created_le (h : s.RunOk) : s.created ≤ cfg.nThreads := by
  by_cases hready : s.state = .Ready
  · rw [(h.ready hready).1]
    exact Nat.zero_le _
  · rcases h.complete hready with hall | ⟨t, pc, hf, hwon⟩
    · exact Nat.le_of_eq hall
    · exact (h.created t pc hf hwon).2

/-- Once the state is `Stopped`, the task queue is closed. -/
theorem isDone_of_stopped (h : (contextSystem cfg τ).ReachableUnder RangeComplete s)
    (hst : s.state = .Stopped) : s.taskQueue.isDone = true := by
  have hzero : s.worker 0 = .exited := exited_of_stopped h hst cfg.nThreads_pos
  exact ejectOk_of_reachable h.reachable 0 (by rw [hzero]; trivial)

section OneClient

variable {s s' : State cfg Unit} {a : Act Unit}

/-- The steps of a run in which the one client stops the context, once `run_while` has filled
`threads_`. -/
def OneStopper (s : State cfg Unit) (a : Act Unit) : Prop := s.RangeComplete a ∧ s.ClientStops a

/-- Whoever is about to store a thunk leaves a worker behind that will take it, and so does whoever
has stored one. -/
structure CoverOk (s : State cfg Unit) : Prop where
  client : ∀ f pc, s.frame (.client ()) = some (.push f pc) → pc.Accepted → ¬ s.Halted
  worker : ∀ w f pc, s.frame (.worker w) = some (.push f pc) → pc.Accepted →
    ¬ (s.worker w).Ejecting
  covered : ∀ j, s.taskQueue.queues j ≠ [] → ∃ w < cfg.nThreads, (s.worker w).Sweeps j

/-- While the client posts, nobody stops. -/
theorem not_stop_of_push (h : (contextSystem cfg Unit).ReachableUnder OneStopper s) {f : Thunk}
    {pc : PushPc Thunk} (hf : s.frame (.client ()) = some (.push f pc)) (t : Tid Unit)
    (qc : StopPc) : s.frame t ≠ some (.stop qc) := by
  intro ht
  rcases t with ⟨⟩ | w
  · rw [hf] at ht
    cases ht
  · exact not_stop_of_clientStops (h.mono fun _ _ hP => hP.2) w qc ht

/-- A thunk that the client may store is accepted before anything has been halted. -/
theorem CoverOk.client_open (hI : s.CoverOk)
    (h : (contextSystem cfg Unit).ReachableUnder OneStopper s) {f : Thunk} {pc : PushPc Thunk}
    (hf : s.frame (.client ()) = some (.push f pc))
    (hacc : pc.Accepted ∨ s.taskQueue.isDone = false) : ¬ s.Halted := by
  rcases hacc with hacc | hopen
  · exact hI.client f pc hf hacc
  · rintro (hst | ⟨t, qc, ht, -⟩)
    · have hdone := isDone_of_stopped (h.mono fun _ _ hP => hP.1) hst
      rw [hopen] at hdone
      cases hdone
    · exact not_stop_of_push h hf t qc ht

/-- A worker that may store a thunk has not begun to drain the task queue. -/
theorem CoverOk.worker_open (hI : s.CoverOk) (hej : s.EjectOk) {w : ℕ} {f : Thunk}
    {pc : PushPc Thunk} (hf : s.frame (.worker w) = some (.push f pc))
    (hacc : pc.Accepted ∨ s.taskQueue.isDone = false) : ¬ (s.worker w).Ejecting := by
  rcases hacc with hacc | hopen
  · exact hI.worker w f pc hf hacc
  · intro hw
    have hdone := hej w hw
    rw [hopen] at hdone
    cases hdone

/-- The thread that stores a thunk leaves a worker behind that will take it. -/
theorem CoverOk.exists_sweeps (hI : s.CoverOk)
    (h : (contextSystem cfg Unit).ReachableUnder OneStopper s) {t : Tid Unit} {f : Thunk}
    {pc : PushPc Thunk} (hf : s.frame t = some (.push f pc)) (hacc : pc.Accepted) (j : ℕ) :
    ∃ w < cfg.nThreads, (s.worker w).Sweeps j := by
  rcases t with ⟨⟩ | w
  · -- it has not stopped the context, so no worker has left
    have hopen := hI.client f pc hf hacc
    exact ⟨0, cfg.nThreads_pos, WorkerPc.sweeps_of_not_ejecting
      (fun hw => hopen (halted_of_ejecting h.reachable hw)) j⟩
  · have hw := (calling_of_reachable h.reachable hf).1
    exact ⟨w, hw.trans_le (runOk_of_reachable h.reachable).created_le,
      WorkerPc.sweeps_of_not_ejecting (hI.worker w f pc hf hacc) j⟩

/-- Every step keeps a sub-queue covered. -/
theorem CoverOk.covered_step (hI : s.CoverOk)
    (h : (contextSystem cfg Unit).ReachableUnder OneStopper s) (hs : Step s a s') {j : ℕ}
    (hj : s'.taskQueue.queues j ≠ []) : ∃ w < cfg.nThreads, (s'.worker w).Sweeps j := by
  rcases taskQueue_of_step hs with ⟨hworker, hqueues, -⟩ |
    ⟨t, f, pc, q', pc', ev, hf, hpush, rfl⟩ | ⟨w, answer, hloop⟩
  · rw [hworker]
    exact hI.covered j (hqueues ▸ hj)
  · obtain ⟨hworker, htask⟩ := worker_afterPush s t f q' pc' ev
    rw [htask] at hj
    rw [hworker]
    cases hpush with
    | store => exact hI.exists_sweeps h hf trivial j
    | refuse | accept | fetch | wrap | busy | throw | leave => exact hI.covered j hj
  · obtain ⟨pc', hworker, hdrain⟩ := drainStep_of_loopStep hloop
    have hold := hdrain.queues j hj
    obtain ⟨v, hv, hsweeps⟩ := hI.covered j hold
    refine ⟨v, hv, ?_⟩
    rw [hworker]
    rcases eq_or_ne v w with rfl | hne
    · rw [Function.update_self]
      exact hdrain.sweeps j ((probesOk_of_reachable h.reachable).used j hold) hj hsweeps
    · rwa [Function.update_of_ne hne]

theorem CoverOk.step (hI : s.CoverOk)
    (h : (contextSystem cfg Unit).ReachableUnder OneStopper s) (hs : Step s a s') :
    s'.CoverOk := by
  have hthunk := thunkStep_of_step (clean_of_reachable h.reachable) hs
  constructor
  · intro f pc hf hpc hhalted
    obtain ⟨pc₀, hf₀, hacc⟩ := hthunk.accepted hf hpc
    rcases halted_of_step hhalted (lifeStep_of_step hs) with hold | ⟨-, t, answer, -, ht⟩
    · exact hI.client_open h hf₀ hacc hold
    · exact not_stop_of_push h hf₀ t _ ht
  · intro w f pc hf hpc
    obtain ⟨pc₀, hf₀, hacc⟩ := hthunk.accepted hf hpc
    rw [worker_of_frame hs hf₀]
    exact hI.worker_open (ejectOk_of_reachable h.reachable) hf₀ hacc
  · exact fun j hj => hI.covered_step h hs hj

theorem coverOk_of_reachable (h : (contextSystem cfg Unit).ReachableUnder OneStopper s) :
    s.CoverOk := by
  refine h.invariant ?_ fun _ _ _ hr hI _ hs => hI.step hr (step_spec hs).2
  rintro _ rfl
  exact ⟨fun _ _ hf => (by cases hf), fun _ _ _ hf => (by cases hf), fun _ hj => absurd rfl hj⟩

/-- **No accepted thunk is left behind.** Once the state is `Stopped`, every thunk whose `post` has
returned `true` has been executed exactly once. -/
theorem executed_of_stopped (h : (contextSystem cfg Unit).ReachableUnder OneStopper s)
    (hst : s.state = .Stopped) {f : Thunk} (hf : s.returned f = some true) :
    s.executed.count f = 1 := by
  have hrange : (contextSystem cfg Unit).ReachableUnder RangeComplete s := h.mono fun _ _ hP => hP.1
  have hthunks := thunksOk_of_reachable h.reachable
  obtain ⟨p, hp⟩ := (hthunks.placed f).mpr (Or.inr hf)
  rcases p with j | w | _
  · have hj : s.taskQueue.queues j ≠ [] := List.ne_nil_of_mem hp
    obtain ⟨w, hw, hsweeps⟩ := (coverOk_of_reachable h).covered j hj
    rw [exited_of_stopped hrange hst hw] at hsweeps
    exact absurd hsweeps id
  · have hp' : f ∈ (s.worker w).thunks := hp
    rcases worker_of_stopped hrange hst w with ⟨-, hw⟩ | hw
    · rw [hw] at hp'
      cases hp'
    · rw [hw] at hp'
      cases hp'
  · exact hthunks.linear.count_eq_one hp

end OneClient

end State

end Sgrpc
