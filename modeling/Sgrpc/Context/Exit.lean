import Mathlib.Algebra.BigOperators.Group.Finset.Piecewise
import Mathlib.Data.Prod.Lex
import Sgrpc.Context.BusyQueues
import Sgrpc.Context.Returns
import Sgrpc.Context.ServerDrain

/-!
# A worker that nothing is posted to leaves its loop

When the winning `stop` joins the workers, all queues of the context are shut down
(`shut_of_halted`). A worker to which nothing is posted any more gets to its end by passes that take
the pending events one at a time, until it finds all queues exhausted; then it empties the task
queue and executes what it finds there. Each of its steps makes the measure `toExit` smaller: first
the operations pending, then the part of the loop it is in, then the way through this part
(`Alone.progress`).
-/

namespace Sgrpc

open Interleaving
open AtomicTaskStealingQueue (PopStep EjectStep)

/-- This `stop` has shut down the `k`-th queue. -/
def StopPc.HasShut (k : ℕ) : StopPc → Prop
  | .setting | .lost | .waiting => False
  | .halting k' => k < k'
  | _ => True

/-- The worker is at a sub-queue that exists, or past the last one. -/
def WorkerPc.Within (n : ℕ) : WorkerPc → Prop
  | .popping (.probe _ _ i) | .draining (.sweep i _) => i ≤ n
  | _ => True

/-- The number of operations that a worker at this point may still start before it begins a pass,
when it gets no further event or thunk until then. -/
def WorkerPc.promise : WorkerPc → ℕ
  | .completing _ _ _ (.handler _ true .entered) => 2
  | .completing _ _ _ (.handler _ _ .armed) | .running _ => 1
  | .popping (.probe x _ _) | .popping (.returned _ x) => x.toList.length
  | _ => 0

/-- A completion that is not ok starts nothing. -/
theorem promise_completionOf (k i : ℕ) (c : PassCounts) (e : Event) :
    (WorkerPc.completing k i c (State.completionOf false e)).promise = 0 := by
  cases e <;> rfl

theorem StopPc.HasShut.won {k : ℕ} {pc : StopPc} (h : pc.HasShut k) : pc.Won := by
  refine won_iff.mpr ⟨?_, ?_⟩ <;>
    · rintro rfl
      exact h

namespace State

variable {cfg : Config} {τ : Type*} {s s' : State cfg τ} {a : Act τ} {t u : Tid τ} {w : ℕ}

/-! ### Queues that have been shut down -/

variable [DecidableEq τ]

omit [DecidableEq τ] in
theorem allQueues_of_servers (h : s'.servers = s.servers) : s'.allQueues = s.allQueues := by
  rw [allQueues, allQueues, setSize_of_servers h, queueAt_of_servers h, h]

/-- No server is attached once a `stop` has made the change to `ShuttingDown`. -/
theorem servers_of_won (h : (contextSystem cfg τ).Reachable s) (hs : Step s a s') {pc : StopPc}
    (hf : s.frame t = some (.stop pc)) (hpc : pc.Won) : s'.servers = s.servers := by
  by_contra hne
  have hready := ((attachOk_of_reachable h).servers_of_step hs hne).1
  have hstop := stopOk_of_reachable h
  by_cases hd : pc.Draining
  · exact absurd ((hstop.draining t pc hf hd).symm.trans hready) (by simp)
  · exact absurd ((hstop.published t pc hf hpc hd).symm.trans hready) (by simp)

/-- A queue that the winning `stop` has passed is shut down. -/
theorem shut_of_halted (h : (contextSystem cfg τ).Reachable s) {pc : StopPc}
    (hf : s.frame t = some (.stop pc)) {k : ℕ} (hpc : pc.HasShut k) {q : QueueId}
    (hq : s.allQueues[k]? = some q) : (s.cq q).isShutdown = true := by
  have hinv : ∀ t pc, s.frame t = some (.stop pc) → ∀ k, pc.HasShut k →
      ∀ q, s.allQueues[k]? = some q → (s.cq q).isShutdown = true := by
    refine h.invariant (I := fun x => ∀ t pc, x.frame t = some (.stop pc) → ∀ k, pc.HasShut k →
      ∀ q, x.allQueues[k]? = some q → (x.cq q).isShutdown = true) ?_
      fun x a x' hr hI _ hs t pc hf k hpc q hq => ?_
    · rintro _ rfl _ _ hf
      cases hf
    · have hstep := (step_spec hs).2
      -- the thread had passed the queue before the step
      have hold : ∀ {u qc}, x.frame u = some (.stop qc) → qc.HasShut k →
          (x'.cq q).isShutdown = true := by
        intro u qc hu hqc
        refine isShutdown_of_step hstep (hI u qc hu k hqc q ?_)
        rwa [← allQueues_of_servers (servers_of_won hr hstep hu hqc.won)]
      cases lifeStep_of_step hstep with
      | same hsame => exact hold ((hsame.stop t pc).mp hf) hpc
      | callRun => exact hold (frame_of_update_frame hf (by simp)) hpc
      | callStop _ hframe =>
        rw [hframe, update_frame_iff] at hf
        rcases hf with ⟨-, heq⟩ | ⟨-, hf⟩
        · cases heq
          exact hpc.elim
        · exact hold hf hpc
      | runWhile _ hrun => cases hrun <;> exact hold (frame_of_update_frame hf (by simp)) hpc
      | @stop u qc _ _ hu hstop =>
        -- the thread has not moved, or has passed the queue now or before
        have hmove : ∀ {f}, x'.frame = Function.update x.frame u f →
            (∀ pc', f = some (.stop pc') → pc'.HasShut k → (x'.cq q).isShutdown = true) →
            (x'.cq q).isShutdown = true := by
          intro f hframe hnew
          rw [hframe, update_frame_iff] at hf
          rcases hf with ⟨-, heq⟩ | ⟨-, hf⟩
          · exact hnew pc heq hpc
          · exact hold hf hpc
        cases hstop with
        | yield | selfJoin | abort => exact hold hf hpc
        | win | lose | proceed =>
          refine hmove rfl fun pc' heq hpc' => ?_
          cases heq
          exact absurd hpc' (by simp [StopPc.HasShut])
        | giveUp | done => exact hmove rfl fun pc' heq => by cases heq
        | @halt k' q' hq' =>
          refine hmove rfl fun pc' heq hpc' => ?_
          cases heq
          rcases Nat.lt_succ_iff_lt_or_eq.mp hpc' with hlt | rfl
          · exact hold hu hlt
          · obtain rfl : q' = q := Option.some.inj (hq'.symm.trans hq)
            show (Function.update x.cq q' (x.cq q').shutdown q').isShutdown = true
            rw [Function.update_self]
            rfl
        | @range k' hnone =>
          refine hmove rfl fun _ _ _ => hold hu ?_
          have hlt : k < x.allQueues.length := (List.getElem?_eq_some_iff.mp hq).1
          exact hlt.trans_le (List.getElem?_eq_none_iff.mp hnone)
        | join | joined | clear | lock | publish | keep | swap | unlock | notify | resume | reenter
        | relock | reaccept | rerefuse | repush | reunlock =>
          exact hmove rfl fun _ _ _ => hold hu trivial
  exact hinv t pc hf k hpc q hq

/-! ### Sub-queues -/

theorem within_of_loopStep {answer : WorkAnswer} {pc : WorkerPc}
    (hpc : pc.Within cfg.nTaskQueues) (hs : LoopStep s w answer pc s') :
    ∃ pc', s'.worker = Function.update s.worker w pc' ∧ pc'.Within cfg.nTaskQueues := by
  cases hs with
  | complete =>
    obtain ⟨pc', hpc', rfl | ⟨what', rfl⟩⟩ := worker_completeStep s w _ _ _ _ <;>
      exact ⟨_, hpc', trivial⟩
  | popCall | ejectCall => exact ⟨_, rfl, Nat.zero_le _⟩
  | pop hpop =>
    cases hpop with
    | skip hi => exact ⟨_, rfl, Nat.lt_of_le_of_ne hpc hi⟩
    | giveUp | take => exact ⟨_, rfl, trivial⟩
  | eject heject =>
    cases heject with
    | again => exact ⟨_, rfl, Nat.zero_le _⟩
    | finish => exact ⟨_, rfl, trivial⟩
    | swap hi => exact ⟨_, rfl, Nat.lt_of_le_of_ne hpc hi⟩
  | run | executeNext => exact ⟨_, worker_execute, trivial⟩
  | stop | pass | stopped | pollNone | pollShutdown | pollEvent | nextSet | polled | leave | stay
  | popped | missed | ejected | exit => exact ⟨_, rfl, trivial⟩

theorem within_of_reachable (h : (contextSystem cfg τ).Reachable s) (w : ℕ) :
    (s.worker w).Within cfg.nTaskQueues := by
  have hinv : ∀ w, (s.worker w).Within cfg.nTaskQueues := by
    refine h.invariant (I := fun x => ∀ w, (x.worker w).Within cfg.nTaskQueues) ?_
      fun x a x' _ hI _ hs v => ?_
    · rintro _ rfl v
      trivial
    · rcases loop_of_step (step_spec hs).2 with hsame | ⟨y, answer, -, -, -, hloop⟩
      · rw [hsame.worker]
        exact hI v
      · obtain ⟨pc', hpc', hwithin⟩ := within_of_loopStep (hI y) hloop
        rw [hpc']
        rcases eq_or_ne v y with rfl | hv
        · rwa [Function.update_self]
        · rw [Function.update_of_ne hv]
          exact hI v
  exact hinv w

/-! ### How far a worker is from its end -/

/-- The number of events pending on the queues of the context. -/
def load (s : State cfg τ) : ℕ :=
  s.allQueues.toFinset.sum fun q => (s.cq q).pending.length

omit [DecidableEq τ] in
theorem load_congr (hcq : s'.cq = s.cq) (hservers : s'.servers = s.servers) : s'.load = s.load := by
  rw [load, load, allQueues_of_servers hservers, hcq]

omit [DecidableEq τ] in
/-- Only the events of one queue change. -/
theorem load_update (q : QueueId) (cq : CompletionQueue) (hservers : s'.servers = s.servers)
    (hcq : s'.cq = Function.update s.cq q cq) :
    s'.load + (if q ∈ s.allQueues then (s.cq q).pending.length else 0) =
      s.load + (if q ∈ s.allQueues then cq.pending.length else 0) := by
  have hlength : (fun q' => (s'.cq q').pending.length) =
      Function.update (fun q' => (s.cq q').pending.length) q cq.pending.length := by
    funext q'
    rw [hcq]
    rcases eq_or_ne q' q with rfl | hne
    · simp
    · simp [hne]
  rw [load, load, allQueues_of_servers hservers, hlength]
  split
  · next hmem =>
    have hmem' : q ∈ s.allQueues.toFinset := List.mem_toFinset.mpr hmem
    rw [Finset.sum_update_of_mem hmem', Finset.sum_eq_add_sum_sdiff_singleton_of_mem hmem']
    omega
  · next hnot =>
    rw [Finset.sum_update_of_notMem (by simpa using hnot)]

omit [DecidableEq τ] in
/-- An operation is started. -/
theorem load_start_le (s : State cfg τ) (q : QueueId) (e : Event) :
    (s.setCq q ((s.cq q).start e)).load ≤ s.load + 1 := by
  have hload : (s.setCq q ((s.cq q).start e)).load + _ = s.load + _ :=
    load_update q ((s.cq q).start e) rfl rfl
  have hlength : ((s.cq q).start e).pending.length = (s.cq q).pending.length + 1 :=
    List.length_append ..
  split at hload <;> omega

omit [DecidableEq τ] in
@[simp] theorem load_setWorker (s : State cfg τ) (w : ℕ) (pc : WorkerPc) :
    (s.setWorker w pc).load = s.load := rfl

omit [DecidableEq τ] in
@[simp] theorem load_setHandler (s : State cfg τ) (h : ℕ) (hd : Handler) :
    (s.setHandler h hd).load = s.load := rfl

@[simp] theorem load_beginPush (s : State cfg τ) (t : Tid τ) (body : ThunkBody) :
    (s.beginPush t body).load = s.load := rfl

omit [DecidableEq τ] in
theorem load_arm_le (s : State cfg τ) (q : QueueId) (immediate : Bool) :
    (s.arm q immediate).load ≤ s.load + 1 := by
  have hload : (s.arm q immediate).load =
      (s.setCq q ((s.cq q).start (.handler s.nextHandler))).load := rfl
  rw [hload]
  exact load_start_le s q _

omit [DecidableEq τ] in
theorem load_finish_le (s : State cfg τ) (h : ℕ) : (s.finish h).load ≤ s.load + 1 :=
  load_start_le s _ _

omit [DecidableEq τ] in
theorem load_execute_le (s : State cfg τ) (f : Thunk) (throws : Bool) (work : WorkEnd) :
    (s.execute f throws work).load ≤ s.load + 1 := by
  rcases f with ⟨id, _ | _ | h⟩
  · exact Nat.le_succ _
  · exact Nat.le_succ _
  · cases work with
    | finished => exact load_start_le s _ _
    | stopped | suspended => exact Nat.le_succ _

omit [DecidableEq τ] in
/-- An event is taken from a queue of the context. -/
theorem load_leave {q : QueueId} {e : Event} {rest : List Event} (hq : q ∈ s.allQueues)
    (hpending : (s.cq q).pending = e :: rest) : (s.leave q rest).load + 1 = s.load := by
  have hload : (s.leave q rest).load + _ = s.load + _ :=
    load_update q { s.cq q with pending := rest } rfl rfl
  rw [if_pos hq, if_pos hq] at hload
  have hlength : (s.cq q).pending.length = rest.length + 1 := by rw [hpending, List.length_cons]
  have hload' : (s.leave q rest).load + (s.cq q).pending.length = s.load + rest.length := hload
  omega

omit [DecidableEq τ] in
/-- The operations that are pending on the queues of the context, or may still be started before a
worker at `pc` begins a pass, while this worker has not left its loop. -/
def duty (s : State cfg τ) : WorkerPc → ℕ
  | .draining _ | .executing _ | .exited => 0
  | pc => s.load + pc.promise + 1

omit [DecidableEq τ] in
theorem duty_congr (hload : s'.load = s.load) (pc : WorkerPc) : s'.duty pc = s.duty pc := by
  cases pc <;> simp only [duty, hload]

/-- The part of its loop that a worker at this point is in. In a pass that will not be its last it
is in another one than in a pass in which it has found every queue exhausted so far. -/
def stage (s : State cfg τ) : WorkerPc → ℕ
  | .completing _ _ _ _ => 9
  | .polling k i c => if c.shutdown + s.setSize k = c.total + i then 3 else 8
  | .checking c => if c.shutdown = c.total then 2 else 7
  | .popping _ => 6
  | .running _ => 5
  | .top | .stopping => 4
  | .draining _ => 2
  | .executing _ => 1
  | .exited => 0

/-- The number of sets of queues, and of steps, that are left of this part. -/
def ahead (s : State cfg τ) : WorkerPc → ℕ × ℕ
  | .polling k i _ => (s.servers.length - k, s.setSize k - i)
  | .completing _ _ _ (.handler _ _ .entered) => (0, 3)
  | .completing _ _ _ (.handler _ _ .armed) => (0, 2)
  | .completing _ _ _ (.handler _ _ .posting) => (0, 1)
  | .popping .idle | .draining .idle => (0, cfg.nTaskQueues + 2)
  | .popping (.probe _ _ i) | .draining (.sweep i _) => (0, cfg.nTaskQueues + 1 - i)
  | .executing rest => (0, rest.length)
  | _ => (0, 0)

omit [DecidableEq τ] in
theorem stage_of_servers (h : s'.servers = s.servers) (pc : WorkerPc) :
    s'.stage pc = s.stage pc := by
  have hsize := setSize_of_servers h
  cases pc <;> simp only [stage, hsize]

omit [DecidableEq τ] in
theorem ahead_of_servers (h : s'.servers = s.servers) (pc : WorkerPc) :
    s'.ahead pc = s.ahead pc := by
  have hsize := setSize_of_servers h
  cases pc <;> simp only [ahead, hsize, h]

/-- How far worker `w` is from its end. -/
def toExit (s : State cfg τ) (w : ℕ) : ℕ ×ₗ ℕ ×ₗ ℕ ×ₗ ℕ ×ₗ ℕ :=
  toLex (s.duty (s.worker w), toLex (s.stage (s.worker w), toLex ((s.ahead (s.worker w)).1,
    toLex ((s.ahead (s.worker w)).2, s.toReturn (.worker w)))))

/-! ### A worker that is left alone -/

/-- The winning `stop` joins the workers, and no thread but worker `w` is in `push`. -/
structure Alone (s : State cfg τ) (t : Tid τ) (k last w : ℕ) : Prop where
  down : s.Down t (.joining k last)
  push : ∀ u, u ≠ .worker w → ¬ InPush (s.frame u)
  frame : s.frame (.worker w) = none ∨ InPush (s.frame (.worker w))

/-- Worker `w` can take a step that brings it nearer to its end. -/
def Advances (s : State cfg τ) (t : Tid τ) (k last w : ℕ) : Prop :=
  ∃ a s', Winds a ∧ s.Fits a ∧ s.step a = some s' ∧ s'.Alone t k last w ∧
    s'.toExit w < s.toExit w

namespace Alone

variable {k last : ℕ}

theorem shut (h : s.Alone t k last w) {q : QueueId} (hq : q ∈ s.allQueues) :
    (s.cq q).isShutdown = true := by
  obtain ⟨m, hm⟩ := List.mem_iff_getElem?.mp hq
  exact shut_of_halted h.down.run.reachable h.down.frame (k := m) trivial hm

/-- Between its calls nobody is in `push`. -/
theorem inPush_eq_zero (h : s.Alone t k last w) (hidle : s.frame (.worker w) = none) :
    s.taskQueue.inPush = 0 := by
  refine (h.down.leaks.inPush.eq_of_forall_not fun u hu => ?_).trans (Nat.zero_mod _)
  by_cases hne : u = .worker w
  · rw [hne, hidle] at hu
    exact hu
  · exact h.push u hne hu

/-- The worker moves. -/
theorem move (h : s.Alone t k last w) (ha : Winds a) (hthread : a.thread = .worker w)
    (hs : s.step a = some s')
    (hframe : s'.frame (.worker w) = none ∨ InPush (s'.frame (.worker w))) :
    s'.Alone t k last w where
  down := h.down.other ha hs (by rw [hthread]; exact h.down.ne_worker w)
  push u hu := by
    rw [frame_of_step (step_spec hs).2 (by rwa [hthread])]
    exact h.push u hu
  frame := hframe

/-- The worker takes a step of its loop, to `pc'`. -/
theorem advance (h : s.Alone t k last w) (hw : w < s.created)
    (hidle : s.frame (.worker w) = none) {pc : WorkerPc} (hpc : s.worker w = pc)
    (next : NextAnswer) (s' : State cfg τ) (pc' : WorkerPc)
    (hs : s.loopStep w ⟨false, next, false, false, .finished⟩ pc = some s')
    (hpc' : s'.worker w = pc')
    (hframe : s'.frame (.worker w) = none ∨ InPush (s'.frame (.worker w)))
    (hduty : s'.duty pc' ≤ s.duty pc)
    (hless : s'.duty pc' = s.duty pc → s.stage pc' < s.stage pc ∨
      (s.stage pc' = s.stage pc ∧ ((s.ahead pc').1 < (s.ahead pc).1 ∨
        (s.ahead pc').1 = (s.ahead pc).1 ∧ (s.ahead pc').2 < (s.ahead pc).2))) :
    s.Advances t k last w := by
  have hstep : s.step (.work w ⟨false, next, false, false, .finished⟩) = some s' := by
    simp [step, h.down.terminated, workStep, hw, hidle, hpc, hs]
  have hservers : s'.servers = s.servers :=
    servers_of_won h.down.run.reachable (step_spec hstep).2 h.down.frame trivial
  have hwinds : Winds (.work w ⟨false, next, false, false, .finished⟩ : Act τ) := ⟨rfl, rfl⟩
  have hfits : s.Fits (.work w ⟨false, next, false, false, .finished⟩) := by
    intro _
    rw [h.inPush_eq_zero hidle]
    decide
  refine ⟨_, s', hwinds, hfits, hstep, h.move hwinds rfl hstep hframe, ?_⟩
  simp only [toExit, hpc, hpc', stage_of_servers hservers, ahead_of_servers hservers,
    Prod.Lex.toLex_lt_toLex']
  omega

/-- The worker takes a step that concerns only its loop. -/
theorem advance_to (h : s.Alone t k last w) (hw : w < s.created)
    (hidle : s.frame (.worker w) = none) {pc : WorkerPc} (hpc : s.worker w = pc)
    (next : NextAnswer) (pc' : WorkerPc)
    (hs : s.loopStep w ⟨false, next, false, false, .finished⟩ pc = some (s.setWorker w pc'))
    (hduty : s.duty pc' ≤ s.duty pc)
    (hless : s.duty pc' = s.duty pc → s.stage pc' < s.stage pc ∨
      (s.stage pc' = s.stage pc ∧ ((s.ahead pc').1 < (s.ahead pc).1 ∨
        (s.ahead pc').1 = (s.ahead pc).1 ∧ (s.ahead pc').2 < (s.ahead pc).2))) :
    s.Advances t k last w :=
  h.advance hw hidle hpc next _ pc' hs (Function.update_self ..) (Or.inl hidle) hduty hless

omit [DecidableEq τ] in
/-- The queue polled is one of the context. -/
theorem mem_allQueues {i j : ℕ} (hi : i ≤ s.servers.length) (hj : j < s.setSize i) :
    s.queueAt i j ∈ s.allQueues := by
  simp only [allQueues, List.mem_flatMap, List.mem_range, List.mem_map]
  exact ⟨i, Nat.lt_succ_of_le hi, j, hj, rfl⟩

/-- A poll in a pass in which every queue has been exhausted so far. -/
theorem poll_clean (h : s.Alone t k last w) (hw : w < s.created)
    (hidle : s.frame (.worker w) = none) {n i : ℕ} {c : PassCounts}
    (hpc : s.worker w = .polling n i c) (hgo : i < s.setSize n ∧ c.current = c.executed)
    (hclean : c.shutdown + s.setSize n = c.total + i) : s.Advances t k last w := by
  have hpass : s.Pass w n i c := by
    have hok := passOk_of_reachable h.down.run.reachable w
    rwa [hpc] at hok
  have hmem : s.queueAt n (nextCqIndex w i (s.setSize n)) ∈ s.allQueues :=
    mem_allQueues hpass.set_le (Nat.mod_lt _ (Nat.zero_lt_of_lt hgo.1))
  have hshut := h.shut hmem
  cases hpending : (s.cq (s.queueAt n (nextCqIndex w i (s.setSize n)))).pending with
  | nil =>
    refine h.advance_to hw hidle hpc .shutdown
      (.polling n (i + 1) { c with shutdown := c.shutdown + 1 }) ?_ le_rfl
      fun _ => Or.inr ⟨?_, Or.inr ⟨rfl, Nat.sub_succ_lt_self _ _ hgo.1⟩⟩
    · simp [loopStep, hgo, poll, CompletionQueue.asyncNext, CompletionQueue.Exhausted, hshut,
        hpending, setCq]
    · have hclean' : c.shutdown + 1 + s.setSize n = c.total + (i + 1) := by omega
      simp [stage, hclean, hclean']
  | cons e rest =>
    have hload := load_leave hmem hpending
    have hduty : ((s.leave (s.queueAt n (nextCqIndex w i (s.setSize n))) rest).setWorker w
          (.completing n i c (completionOf false e))).duty
        (.completing n i c (completionOf false e)) < s.duty (.polling n i c) := by
      show (s.leave (s.queueAt n (nextCqIndex w i (s.setSize n))) rest).load +
        WorkerPc.promise _ + 1 < s.load + 0 + 1
      rw [promise_completionOf]
      omega
    refine h.advance hw hidle hpc (.gotEvent 0 false)
      ((s.leave (s.queueAt n (nextCqIndex w i (s.setSize n))) rest).setWorker w
        (.completing n i c (completionOf false e))) _ ?_ (Function.update_self ..) (Or.inl hidle)
      hduty.le fun heq => absurd heq hduty.ne
    simp [loopStep, hgo, poll, CompletionQueue.asyncNext, hpending, leave]

theorem polling (h : s.Alone t k last w) (hw : w < s.created)
    (hidle : s.frame (.worker w) = none) {n i : ℕ} {c : PassCounts}
    (hpc : s.worker w = .polling n i c) : s.Advances t k last w := by
  have hpass : s.Pass w n i c := by
    have hok := passOk_of_reachable h.down.run.reachable w
    rwa [hpc] at hok
  have hlag : c.current ≠ c.executed → c.shutdown + s.setSize n < c.total + i := by
    have hlag := lagging_of_reachable h.down.run.reachable w
    rwa [hpc] at hlag
  have hle := hpass.le
  have hcount := hpass.count
  by_cases hgo : i < s.setSize n ∧ c.current = c.executed
  · by_cases hclean : c.shutdown + s.setSize n = c.total + i
    · exact h.poll_clean hw hidle hpc hgo hclean
    · refine h.advance_to hw hidle hpc .timeout (.polling n (i + 1) c) ?_ le_rfl
        fun _ => Or.inr ⟨?_, Or.inr ⟨rfl, Nat.sub_succ_lt_self _ _ hgo.1⟩⟩
      · simp [loopStep, hgo, poll, CompletionQueue.asyncNext, setCq]
      · have hclean' : c.shutdown + s.setSize n ≠ c.total + (i + 1) := by omega
        simp [stage, hclean, hclean']
  · -- the counts agree if and only if they have before
    have hagree : c.shutdown = c.total ↔ c.shutdown + s.setSize n = c.total + i := by
      by_cases hc : c.current = c.executed
      · have hi : ¬ i < s.setSize n := fun hi => hgo ⟨hi, hc⟩
        omega
      · have hlt := hlag hc
        omega
    by_cases hn : n < s.servers.length
    · refine h.advance_to hw hidle hpc .timeout (.polling (n + 1) 0
        { c with total := c.total + s.setSize (n + 1), current := c.executed }) ?_ le_rfl
        fun _ => Or.inr ⟨?_, Or.inl (Nat.sub_succ_lt_self _ _ hn)⟩
      · simp [loopStep, hgo, hn]
      · have hagree' : c.shutdown + s.setSize (n + 1) = c.total + s.setSize (n + 1) + 0 ↔
            c.shutdown = c.total := by omega
        simp only [stage, hagree', hagree]
    · refine h.advance_to hw hidle hpc .timeout (.checking c) ?_ le_rfl fun _ => Or.inl ?_
      · simp [loopStep, hgo, hn]
      · simp only [stage, hagree]
        split <;> omega

/-- The worker goes on after an event: its pass will not be the last one. -/
theorem completed (h : s.Alone t k last w) (hw : w < s.created)
    (hidle : s.frame (.worker w) = none) {n i : ℕ} {c : PassCounts} {what : Completion}
    (hpc : s.worker w = .completing n i c what)
    (hworker : (s.completeStep w n i c what).worker w =
      .polling n (i + 1) { c with executed := c.executed + 1 })
    (hframe : (s.completeStep w n i c what).frame = s.frame)
    (hload : (s.completeStep w n i c what).load ≤
      s.load + (WorkerPc.completing n i c what).promise) : s.Advances t k last w := by
  have hpass : s.PassOk w (.completing n i c what) :=
    hpc ▸ passOk_of_reachable h.down.run.reachable w
  have hcount := hpass.1.count
  refine h.advance hw hidle hpc .timeout _ _ rfl hworker (Or.inl (by rw [hframe, hidle])) ?_
    fun _ => Or.inl ?_
  · simp only [duty]
    exact Nat.succ_le_succ hload
  · have hclean : c.shutdown + s.setSize n ≠ c.total + (i + 1) := by omega
    simp [stage, hclean]

theorem completing (h : s.Alone t k last w) (hw : w < s.created)
    (hidle : s.frame (.worker w) = none) {n i : ℕ} {c : PassCounts} {what : Completion}
    (hpc : s.worker w = .completing n i c what) : s.Advances t k last w := by
  rcases what with ⟨⟨id⟩ | ⟨id⟩ | ⟨m⟩, isOk⟩ | ⟨m, isOk, _ | _ | _⟩
  · exact h.completed hw hidle hpc (Function.update_self ..) rfl le_rfl
  · exact h.completed hw hidle hpc (Function.update_self ..) rfl le_rfl
  · exact h.completed hw hidle hpc (Function.update_self ..) rfl le_rfl
  · by_cases hdel : ((s.handler m).deleteOnNextComplete || !isOk) = true
    · have heq : s.completeStep w n i c (.handler m isOk .entered) =
          s.setWorker w (.polling n (i + 1) { c with executed := c.executed + 1 }) := if_pos hdel
      refine h.completed hw hidle hpc ?_ ?_ ?_ <;> rw [heq]
      · exact Function.update_self ..
      · rfl
      · exact Nat.le_add_right ..
    · obtain rfl : isOk = true := by
        by_contra hnot
        exact hdel (by simp [hnot])
      have hload := load_arm_le s (s.handler m).cq (s.handler m).immediate
      have heq : s.completeStep w n i c (.handler m true .entered) =
          ((s.arm (s.handler m).cq (s.handler m).immediate).setHandler m
            { (s.arm (s.handler m).cq (s.handler m).immediate).handler m with
              deleteOnNextComplete := true }).setWorker w
            (.completing n i c (.handler m true .armed)) := if_neg hdel
      refine h.advance hw hidle hpc .timeout _ (.completing n i c (.handler m true .armed))
        (congrArg some heq) (Function.update_self ..) (Or.inl hidle) ?_
        fun _ => Or.inr ⟨rfl, Or.inr ⟨rfl, Nat.lt_succ_self 2⟩⟩
      simp only [duty, WorkerPc.promise, load_setWorker, load_setHandler]
      omega
  · have hpromise : (WorkerPc.completing n i c (.handler m isOk .armed)).promise = 1 := by
      cases isOk <;> rfl
    by_cases himmediate : (s.handler m).immediate = true
    · have heq : s.completeStep w n i c (.handler m isOk .armed) = (s.finish m).setWorker w
          (.polling n (i + 1) { c with executed := c.executed + 1 }) := if_pos himmediate
      refine h.completed hw hidle hpc ?_ ?_ ?_ <;> rw [heq]
      · exact Function.update_self ..
      · rfl
      · rw [hpromise]
        exact load_finish_le s m
    · have hposting : (WorkerPc.completing n i c (.handler m isOk .posting)).promise = 0 := by
        cases isOk <;> rfl
      refine h.advance hw hidle hpc .timeout _ (.completing n i c (.handler m isOk .posting))
        (congrArg some (if_neg himmediate)) (Function.update_self ..) (Or.inr ?_) ?_
        fun _ => Or.inr ⟨rfl, Or.inr ⟨rfl, Nat.lt_succ_self 1⟩⟩
      · show InPush (Function.update s.frame (.worker w) _ (.worker w))
        rw [Function.update_self]
        trivial
      · simp only [duty, hposting, hpromise, load_setWorker, load_beginPush]
        omega
  · exact h.completed hw hidle hpc (Function.update_self ..) rfl (Nat.le_add_right ..)

theorem popping (h : s.Alone t k last w) (hw : w < s.created)
    (hidle : s.frame (.worker w) = none) {pc : PopPc Thunk} (hpc : s.worker w = .popping pc) :
    s.Advances t k last w := by
  have hwithin : (WorkerPc.popping pc).Within cfg.nTaskQueues :=
    hpc ▸ within_of_reachable h.down.run.reachable w
  cases pc with
  | idle =>
    refine h.advance hw hidle hpc .timeout _ (.popping (.probe none s.taskQueue.popIndex 0)) rfl
      (Function.update_self ..) (Or.inl hidle) le_rfl fun _ => Or.inr ⟨rfl, Or.inr ⟨rfl, ?_⟩⟩
    exact Nat.lt_succ_self _
  | probe x o i =>
    have hi : i ≤ cfg.nTaskQueues := hwithin
    by_cases hn : i = cfg.nTaskQueues
    · refine h.advance_to hw hidle hpc .timeout (.popping (.returned false x)) ?_ le_rfl
        fun _ => Or.inr ⟨rfl, Or.inr ⟨rfl, ?_⟩⟩
      · simp [loopStep, popStep, AtomicTaskStealingQueue.popStep, hn]
      · simp only [ahead]
        omega
    · refine h.advance_to hw hidle hpc .timeout (.popping (.probe x o (i + 1))) ?_ le_rfl
        fun _ => Or.inr ⟨rfl, Or.inr ⟨rfl, ?_⟩⟩
      · simp [loopStep, popStep, AtomicTaskStealingQueue.popStep, hn,
          OptimisiticLockingQueue.tryPop]
      · simp only [ahead]
        omega
  | returned b x =>
    cases x with
    | none =>
      exact h.advance_to hw hidle hpc .timeout .top rfl le_rfl fun _ =>
        Or.inl (Nat.lt_succ_of_lt (Nat.lt_succ_self 4))
    | some thunk =>
      exact h.advance_to hw hidle hpc .timeout (.running thunk) rfl le_rfl fun _ =>
        Or.inl (Nat.lt_succ_self 5)

theorem running (h : s.Alone t k last w) (hw : w < s.created)
    (hidle : s.frame (.worker w) = none) {f : Thunk} (hpc : s.worker w = .running f) :
    s.Advances t k last w := by
  have hload := load_execute_le s f false .finished
  refine h.advance hw hidle hpc .timeout _ .top rfl (Function.update_self ..) (Or.inl ?_) ?_
    fun _ => Or.inl (Nat.lt_succ_self 4)
  · rcases f with ⟨id, _ | _ | m⟩ <;> exact hidle
  · simp only [duty, WorkerPc.promise, load_setWorker]
    omega

theorem draining (h : s.Alone t k last w) (hw : w < s.created)
    (hidle : s.frame (.worker w) = none) {pc : EjectPc Thunk} (hpc : s.worker w = .draining pc) :
    s.Advances t k last w := by
  have hwithin : (WorkerPc.draining pc).Within cfg.nTaskQueues :=
    hpc ▸ within_of_reachable h.down.run.reachable w
  cases pc with
  | idle =>
    refine h.advance hw hidle hpc .timeout _ (.draining (.sweep 0 [])) rfl (Function.update_self ..)
      (Or.inl hidle) le_rfl fun _ => Or.inr ⟨rfl, Or.inr ⟨rfl, Nat.lt_succ_self _⟩⟩
  | sweep i thunks =>
    have hi : i ≤ cfg.nTaskQueues := hwithin
    by_cases hn : i = cfg.nTaskQueues
    · have hnone : ¬ 0 < s.taskQueue.inPush := (h.inPush_eq_zero hidle).not_gt
      refine h.advance_to hw hidle hpc .timeout (.draining (.returned thunks)) ?_ le_rfl
        fun _ => Or.inr ⟨rfl, Or.inr ⟨rfl, ?_⟩⟩
      · simp [loopStep, drainStep, AtomicTaskStealingQueue.ejectStep, hn, hnone]
      · simp only [ahead]
        omega
    · refine h.advance hw hidle hpc .timeout
        ({ s with taskQueue := s.taskQueue.setQueue i [] }.setWorker w
          (.draining (.sweep (i + 1) (thunks ++ s.taskQueue.queues i))))
        (.draining (.sweep (i + 1) (thunks ++ s.taskQueue.queues i))) ?_ (Function.update_self ..)
        (Or.inl hidle) le_rfl fun _ => Or.inr ⟨rfl, Or.inr ⟨rfl, ?_⟩⟩
      · simp [loopStep, drainStep, AtomicTaskStealingQueue.ejectStep, hn,
          OptimisiticLockingQueue.eject]
      · simp only [ahead]
        omega
  | returned thunks =>
    exact h.advance_to hw hidle hpc .timeout (.executing thunks) rfl le_rfl fun _ =>
      Or.inl (Nat.lt_succ_self 1)

theorem executing (h : s.Alone t k last w) (hw : w < s.created)
    (hidle : s.frame (.worker w) = none) {thunks : List Thunk}
    (hpc : s.worker w = .executing thunks) : s.Advances t k last w := by
  cases thunks with
  | nil =>
    exact h.advance_to hw hidle hpc .timeout .exited rfl le_rfl fun _ => Or.inl Nat.one_pos
  | cons f rest =>
    refine h.advance hw hidle hpc .timeout _ (.executing rest) rfl (Function.update_self ..)
      (Or.inl ?_) le_rfl fun _ => Or.inr ⟨rfl, Or.inr ⟨rfl, Nat.lt_succ_self _⟩⟩
    rcases f with ⟨id, _ | _ | m⟩ <;> exact hidle

/-- The worker is in a `push`. -/
theorem pushing (h : s.Alone t k last w) (hn : 0 < cfg.nTaskQueues) {f : Thunk} {pc : PushPc Thunk}
    (hf : s.frame (.worker w) = some (.push f pc)) : s.Advances t k last w := by
  obtain ⟨s', hs, hnearer⟩ := h.down.goes hn (h.down.ne_worker w).symm hf fun hat => hat.elim
  have hworker := worker_of_go hs
  have hreturn := toReturn_lt hf fun g hg => (hnearer g hg).1
  have hpush : s.pushStep (.worker w) f pc .free = some s' := by
    simpa [step, go, h.down.terminated, apiStep, hf] using hs
  obtain ⟨q', pc', ev, -, rfl⟩ := pushStep_eq hpush
  -- it stays in the `push` until this returns
  have hkept : (s.afterPush (.worker w) f q' pc' ev).cq = s.cq ∧
      (s.afterPush (.worker w) f q' pc' ev).servers = s.servers := by
    cases pc' <;> exact ⟨rfl, rfl⟩
  have hframe : (s.afterPush (.worker w) f q' pc' ev).frame (.worker w) = none ∨
      InPush ((s.afterPush (.worker w) f q' pc' ev).frame (.worker w)) := by
    cases pc' with
    | returned | threw => exact Or.inl (Function.update_self ..)
    | idle | counted | next | probe | leaving =>
      refine Or.inr ?_
      show InPush (Function.update s.frame (.worker w) _ (.worker w))
      rw [Function.update_self]
      trivial
  refine ⟨_, _, winds_go _, fits_go _ _, hs, h.move (winds_go _) rfl hs hframe, ?_⟩
  simp only [toExit, hworker, stage_of_servers hkept.2, ahead_of_servers hkept.2,
    duty_congr (load_congr hkept.1 hkept.2), Prod.Lex.toLex_lt_toLex']
  omega

/-- **A worker that is left alone gets nearer to its end**, wherever it is. -/
theorem progress (h : s.Alone t k last w) (hn : 0 < cfg.nTaskQueues) (hw : w < s.created)
    (hpc : s.worker w ≠ .exited) : s.Advances t k last w := by
  rcases h.frame with hidle | hpush
  · cases hworker : s.worker w with
    | top | stopping =>
      refine h.advance_to hw hidle hworker .timeout (startPass cfg) rfl le_rfl fun _ => Or.inl ?_
      simp [stage, startPass, setSize]
    | polling => exact h.polling hw hidle hworker
    | completing => exact h.completing hw hidle hworker
    | checking c =>
      by_cases hc : c.shutdown = c.total
      · refine h.advance_to hw hidle hworker .timeout (.draining .idle) ?_ (Nat.zero_le _)
          fun heq => ?_
        · simp [loopStep, hc]
        · cases heq
      · refine h.advance_to hw hidle hworker .timeout (.popping .idle) ?_ le_rfl fun _ => Or.inl ?_
        · simp [loopStep, hc]
        · simp [stage, hc]
    | popping => exact h.popping hw hidle hworker
    | running => exact h.running hw hidle hworker
    | draining => exact h.draining hw hidle hworker
    | executing => exact h.executing hw hidle hworker
    | exited => exact absurd hworker hpc
  · cases hf : s.frame (.worker w) with
    | none =>
      rw [hf] at hpush
      exact hpush.elim
    | some f =>
      rw [hf] at hpush
      cases f with
      | push => exact h.pushing hn hf
      | post | runWhile | stop | attach | notify | work => exact hpush.elim

end Alone

end State

end Sgrpc
