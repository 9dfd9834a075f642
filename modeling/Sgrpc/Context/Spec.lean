import Sgrpc.Context.Step

/-!
# What one step of a context can do

The step functions of `run_while`, `stop`, `attach_server`, `add_notify_at_stopped` and
`run_one_thread_`, inverted: one inductive predicate for each, with a constructor for every
branch that names its guard and the state it leads to. `Step` collects them with the steps of
`post` and the calls; the invariants are proved by cases on it.
-/

namespace Sgrpc

open Interleaving
open AtomicTaskStealingQueue (PushStep PopStep EjectStep pushStep_spec popStep_spec ejectStep_spec)

namespace ExecutionState

theorem setState_running {s st : ExecutionState} :
    s.setState .Running = some st ↔ s = .Ready ∧ st = .Running := by
  cases s <;> simp [setState, eq_comm]

theorem setState_shuttingDown {s st : ExecutionState} :
    s.setState .ShuttingDown = some st ↔ s = .Running ∧ st = .ShuttingDown := by
  cases s <;> simp [setState, eq_comm]

theorem setState_stopped {s st : ExecutionState} :
    s.setState .Stopped = some st ↔ s = .ShuttingDown ∧ st = .Stopped := by
  cases s <;> simp [setState, eq_comm]

theorem setState_running_none {s : ExecutionState} : s.setState .Running = none ↔ s ≠ .Ready := by
  cases s <;> simp [setState]

theorem setState_shuttingDown_none {s : ExecutionState} :
    s.setState .ShuttingDown = none ↔ s ≠ .Running := by
  cases s <;> simp [setState]

theorem setState_stopped_none {s : ExecutionState} :
    s.setState .Stopped = none ↔ s ≠ .ShuttingDown := by
  cases s <;> simp [setState]

theorem canPost_iff {s : ExecutionState} : s.canPost = true ↔ s = .Ready ∨ s = .Running := by
  cases s <;> simp [canPost, toInt]

end ExecutionState

/-- The signal that the execution of a thunk sends. -/
def Thunk.signals (f : Thunk) (throws : Bool) : List (ℕ × Signal) :=
  match f.body with
  | .complete => [(f.id, if throws then .set_error else .set_value)]
  | _ => []

open ExecutionState

namespace State

variable {cfg : Config} {τ : Type*} [DecidableEq τ] {s s' : State cfg τ} {t : Tid τ} {w : ℕ}

/-! ### `post` -/

/-- The state after a step of `push` that leads to `pc`. -/
def afterPush (s : State cfg τ) (t : Tid τ) (thunk : Thunk)
    (q : AtomicTaskStealingQueue Thunk cfg.nTaskQueues) (pc : PushPc Thunk)
    (ev : List (QueueEvent Thunk)) : State cfg τ :=
  let s := { s with taskQueue := q, tested := recordTests s.tested ev }
  match pc with
  | .returned accepted _ =>
      { s.setFrame t none with returned := Function.update s.returned thunk (some accepted) }
  | .threw _ => { s.setFrame t none with
      threw := s.threw ++ [thunk.id]
      terminated := thunk.body ≠ .user }
  | pc => s.setFrame t (some (.push thunk pc))

theorem pushStep_eq {thunk : Thunk} {pc : PushPc Thunk} {answer}
    (h : s.pushStep t thunk pc answer = some s') :
    ∃ q' pc' ev, PushStep s.taskQueue pc q' pc' ev ∧
      s' = s.afterPush t thunk q' pc' ev := by
  obtain ⟨⟨q', pc', ev⟩, hr, rfl⟩ := Option.map_eq_some_iff.mp h
  exact ⟨q', pc', ev, pushStep_spec hr, rfl⟩

/-! ### `run_while` -/

inductive RunStep (s : State cfg τ) (t : Tid τ) : RunPc → State cfg τ → Prop
  | lock : s.padlock = false →
      RunStep s t .locking { s.setFrame t (some (.runWhile .setting)) with padlock := true }
  | win : s.state = .Ready →
      RunStep s t .setting
        { s.setFrame t (some (.runWhile (.unlocking true))) with state := .Running }
  | lose : s.state ≠ .Ready →
      RunStep s t .setting (s.setFrame t (some (.runWhile (.unlocking false))))
  | unlock : RunStep s t (.unlocking true)
      { s.setFrame t (some (.runWhile (.spawning 0))) with padlock := false }
  | giveUp : RunStep s t (.unlocking false) { s.setFrame t none with padlock := false }
  | spawn {i} : i < cfg.nThreads →
      RunStep s t (.spawning i)
        { s.setFrame t (some (.runWhile (.storing i))) with created := s.created + 1 }
  | store {i} : RunStep s t (.storing i)
      { s.setFrame t (some (.runWhile (.spawning (i + 1)))) with threads := s.threads ++ [i] }
  | done {i} : ¬ i < cfg.nThreads → RunStep s t (.spawning i) (s.setFrame t none)

theorem runStep_spec {pc : RunPc} (h : s.runStep t pc = some s') : RunStep s t pc s' := by
  cases pc with
  | locking =>
    by_cases hp : s.padlock = true
    · simp [runStep, hp] at h
    · simp only [runStep, hp] at h
      cases h
      exact .lock (by simpa using hp)
  | setting =>
    cases hset : s.state.setState .Running with
    | some st =>
      simp only [runStep, hset] at h
      cases h
      obtain ⟨hready, rfl⟩ := setState_running.mp hset
      exact .win hready
    | none =>
      simp only [runStep, hset] at h
      cases h
      exact .lose (setState_running_none.mp hset)
  | unlocking won =>
    cases won with
    | true =>
      simp only [runStep] at h
      cases h
      exact .unlock
    | false =>
      simp only [runStep] at h
      cases h
      exact .giveUp
  | spawning i =>
    by_cases hi : i < cfg.nThreads
    · simp only [runStep, hi, if_true] at h
      cases h
      exact .spawn hi
    · simp only [runStep, hi, if_false] at h
      cases h
      exact .done hi
  | storing i =>
    simp only [runStep] at h
    cases h
    exact .store

/-! ### `add_notify_at_stopped` -/

inductive RegisterStep (s : State cfg τ) (t : Tid τ) (id : ℕ) (inside : NotifyPc → Frame)
    (after : Option Frame) : NotifyPc → State cfg τ → Prop
  | lock : s.padlock = false →
      RegisterStep s t id inside after .locking
        { s.setFrame t (some (inside .checking)) with padlock := true }
  | accept : s.state ≠ .Stopped →
      RegisterStep s t id inside after .checking (s.setFrame t (some (inside .pushing)))
  | refuse : s.state = .Stopped →
      RegisterStep s t id inside after .checking (s.setFrame t (some (inside .unlocking)))
  | push : RegisterStep s t id inside after .pushing
      { s.setFrame t (some (inside .unlocking)) with
        notifications := s.notifications ++ [id]
        registered := s.registered ++ [id] }
  | unlock : RegisterStep s t id inside after .unlocking
      { s.setFrame t after with padlock := false }

theorem registerStep_spec {id : ℕ} {inside : NotifyPc → Frame} {after : Option Frame}
    {pc : NotifyPc} (h : s.registerStep t id inside after pc = some s') :
    RegisterStep s t id inside after pc s' := by
  cases pc with
  | locking =>
    by_cases hp : s.padlock = true
    · simp [registerStep, hp] at h
    · simp only [registerStep, hp] at h
      cases h
      exact .lock (by simpa using hp)
  | checking =>
    by_cases hr : s.state = .Stopped
    · simp only [registerStep, hr] at h
      cases h
      exact .refuse hr
    · have hlt : s.state.toInt < ExecutionState.Stopped.toInt := by
        revert hr
        cases s.state <;> simp [toInt]
      simp only [registerStep, hlt, if_true] at h
      cases h
      exact .accept hr
  | pushing =>
    simp only [registerStep] at h
    cases h
    exact .push
  | unlocking =>
    simp only [registerStep] at h
    cases h
    exact .unlock

/-- A call by the thread itself. -/
abbrev NotifyStep (s : State cfg τ) (t : Tid τ) (id : ℕ) : NotifyPc → State cfg τ → Prop :=
  RegisterStep s t id (.notify id) none

/-! ### `stop` -/

inductive StopStep (s : State cfg τ) (t : Tid τ) : StopPc → State cfg τ → Prop
  | win : s.state = .Running →
      StopStep s t .setting { s.setFrame t (some (.stop .waiting)) with state := .ShuttingDown }
  | lose : s.state ≠ .Running →
      StopStep s t .setting (s.setFrame t (some (.stop .lost)))
  | giveUp : StopStep s t .lost (s.setFrame t none)
  | yield : 0 < s.withinCqPost → StopStep s t .waiting s
  | proceed : s.withinCqPost = 0 →
      StopStep s t .waiting (s.setFrame t (some (.stop (.halting 0))))
  | halt {k q} : s.allQueues[k]? = some q →
      StopStep s t (.halting k)
        ((s.setCq q (s.cq q).shutdown).setFrame t (some (.stop (.halting (k + 1)))))
  | range {k} : s.allQueues[k]? = none →
      StopStep s t (.halting k) (s.setFrame t (some (.stop (.joining 0 s.threads.length))))
  | selfJoin {k last w} : k < last → s.threads[k]? = some w → t = .worker w →
      StopStep s t (.joining k last) { s with terminated := true }
  | join {k last w} : k < last → s.threads[k]? = some w → t ≠ .worker w →
      s.worker w = .exited →
      StopStep s t (.joining k last)
        { s.setFrame t (some (.stop (.joining (k + 1) last))) with
          joins := Function.update s.joins w (s.joins w + 1) }
  | joined {k last} : ¬ k < last →
      StopStep s t (.joining k last) (s.setFrame t (some (.stop .clearing)))
  | clear : (∀ w ∈ s.threads, 0 < s.joins w) →
      StopStep s t .clearing { s.setFrame t (some (.stop .locking)) with threads := [] }
  | abort : (¬ ∀ w ∈ s.threads, 0 < s.joins w) →
      StopStep s t .clearing { s with terminated := true }
  | lock : s.padlock = false →
      StopStep s t .locking { s.setFrame t (some (.stop .publishing)) with padlock := true }
  | publish : s.state = .ShuttingDown →
      StopStep s t .publishing { s.setFrame t (some (.stop .swapping)) with state := .Stopped }
  | keep : s.state ≠ .ShuttingDown →
      StopStep s t .publishing (s.setFrame t (some (.stop .swapping)))
  | swap : StopStep s t .swapping
      { s.setFrame t (some (.stop (.unlocking s.notifications))) with notifications := [] }
  | unlock {ns} : StopStep s t (.unlocking ns)
      { s.setFrame t (some (.stop (.notifying ns))) with padlock := false }
  | done : StopStep s t (.notifying []) (s.setFrame t none)
  | notify {n ns} : StopStep s t (.notifying (n :: ns))
      { s.setFrame t (some (.stop (.inNotification ns))) with notified := s.notified ++ [n] }
  | resume {ns} : StopStep s t (.inNotification ns) (s.setFrame t (some (.stop (.notifying ns))))
  | reenter {ns} : StopStep s t (.inNotification ns)
      { s.setFrame t (some (.stop (.registering s.nextId .locking ns))) with
        nextId := s.nextId + 1 }
  | relock {id ns} : s.padlock = false → StopStep s t (.registering id .locking ns)
      { s.setFrame t (some (.stop (.registering id .checking ns))) with padlock := true }
  | reaccept {id ns} : s.state ≠ .Stopped → StopStep s t (.registering id .checking ns)
      (s.setFrame t (some (.stop (.registering id .pushing ns))))
  | rerefuse {id ns} : s.state = .Stopped → StopStep s t (.registering id .checking ns)
      (s.setFrame t (some (.stop (.registering id .unlocking ns))))
  | repush {id ns} : StopStep s t (.registering id .pushing ns)
      { s.setFrame t (some (.stop (.registering id .unlocking ns))) with
        notifications := s.notifications ++ [id]
        registered := s.registered ++ [id] }
  | reunlock {id ns} : StopStep s t (.registering id .unlocking ns)
      { s.setFrame t (some (.stop (.inNotification ns))) with padlock := false }

theorem stopStep_spec {pc : StopPc} {reenters : Bool} (h : s.stopStep t reenters pc = some s') :
    StopStep s t pc s' := by
  cases pc with
  | setting =>
    cases hset : s.state.setState .ShuttingDown with
    | some st =>
      simp only [stopStep, hset] at h
      cases h
      obtain ⟨hrun, rfl⟩ := setState_shuttingDown.mp hset
      exact .win hrun
    | none =>
      simp only [stopStep, hset] at h
      cases h
      exact .lose (setState_shuttingDown_none.mp hset)
  | lost =>
    simp only [stopStep] at h
    cases h
    exact .giveUp
  | waiting =>
    by_cases hp : 0 < s.withinCqPost
    · simp only [stopStep, gt_iff_lt, hp, if_true] at h
      cases h
      exact .yield hp
    · simp only [stopStep, gt_iff_lt, hp, if_false] at h
      cases h
      exact .proceed (Nat.eq_zero_of_not_pos hp)
  | halting k =>
    cases hq : s.allQueues[k]? with
    | some q =>
      simp only [stopStep, hq] at h
      cases h
      exact .halt hq
    | none =>
      simp only [stopStep, hq] at h
      cases h
      exact .range hq
  | joining k last =>
    by_cases hk : k < last
    · simp only [stopStep, hk, if_true] at h
      obtain ⟨w, hw, hrest⟩ := Option.bind_eq_some_iff.mp h
      by_cases ht : t = .worker w
      · rw [if_pos ht] at hrest
        cases hrest
        exact .selfJoin hk hw ht
      · rw [if_neg ht] at hrest
        by_cases he : s.worker w = .exited
        · rw [if_pos he] at hrest
          cases hrest
          exact .join hk hw ht he
        · rw [if_neg he] at hrest
          exact absurd hrest (by simp)
    · simp only [stopStep, hk, if_false] at h
      cases h
      exact .joined hk
  | clearing =>
    by_cases hj : ∀ w ∈ s.threads, 0 < s.joins w
    · simp only [stopStep] at h
      rw [if_pos hj] at h
      cases h
      exact .clear hj
    · simp only [stopStep] at h
      rw [if_neg hj] at h
      cases h
      exact .abort hj
  | locking =>
    by_cases hp : s.padlock = true
    · simp [stopStep, hp] at h
    · simp only [stopStep, hp] at h
      cases h
      exact .lock (by simpa using hp)
  | publishing =>
    cases hset : s.state.setState .Stopped with
    | some st =>
      simp only [stopStep, hset] at h
      cases h
      obtain ⟨hdown, rfl⟩ := setState_stopped.mp hset
      exact .publish hdown
    | none =>
      simp only [stopStep, hset] at h
      cases h
      exact .keep (setState_stopped_none.mp hset)
  | swapping =>
    simp only [stopStep] at h
    cases h
    exact .swap
  | unlocking ns =>
    simp only [stopStep] at h
    cases h
    exact .unlock
  | notifying ns =>
    cases ns with
    | nil =>
      simp only [stopStep] at h
      cases h
      exact .done
    | cons n ns =>
      simp only [stopStep] at h
      cases h
      exact .notify
  | inNotification ns =>
    cases reenters with
    | true =>
      simp only [stopStep] at h
      cases h
      exact .reenter
    | false =>
      simp only [stopStep] at h
      cases h
      exact .resume
  | registering id pc ns =>
    simp only [stopStep] at h
    cases registerStep_spec h with
    | lock hp => exact .relock hp
    | accept hst => exact .reaccept hst
    | refuse hst => exact .rerefuse hst
    | push => exact .repush
    | unlock => exact .reunlock

/-! ### `attach_server` -/

omit [DecidableEq τ] in
/-- Making a handler concerns the handlers and the queues only. -/
theorem arm_eq (s : State cfg τ) (q : QueueId) (immediate : Bool) :
    ∃ cq handler nextHandler,
      s.arm q immediate = { s with cq := cq, handler := handler, nextHandler := nextHandler } :=
  ⟨_, _, _, rfl⟩

omit [DecidableEq τ] in
/-- Wiring concerns the handlers and the queues only. -/
theorem wireRpcs_eq (s : State cfg τ) (q : QueueId) (wired : List Bool) :
    ∃ cq handler nextHandler,
      s.wireRpcs q wired = { s with cq := cq, handler := handler, nextHandler := nextHandler } := by
  unfold wireRpcs
  induction wired generalizing s with
  | nil => exact ⟨s.cq, s.handler, s.nextHandler, rfl⟩
  | cons immediate rest ih =>
    obtain ⟨cq, handler, nextHandler, h⟩ := ih (s.arm q immediate)
    obtain ⟨cq', handler', nextHandler', harm⟩ := arm_eq s q immediate
    exact ⟨cq, handler, nextHandler, by rw [List.foldl_cons, h, harm]⟩

omit [DecidableEq τ] in
theorem wire_eq (s : State cfg τ) (id j : ℕ) (wired : List (List Bool)) :
    ∃ cq handler nextHandler,
      s.wire id j wired = { s with cq := cq, handler := handler, nextHandler := nextHandler } := by
  induction wired generalizing s j with
  | nil => exact ⟨s.cq, s.handler, s.nextHandler, rfl⟩
  | cons w rest ih =>
    obtain ⟨cq, handler, nextHandler, h⟩ := wireRpcs_eq s (.server id j) w
    obtain ⟨cq', handler', nextHandler', h'⟩ := ih (s.wireRpcs (.server id j) w) (j + 1)
    exact ⟨cq', handler', nextHandler', by rw [wire, h', h]⟩

inductive AttachStep (s : State cfg τ) (t : Tid τ) (server : ServerContainer) :
    AttachPc → State cfg τ → Prop
  | lock : s.padlock = false →
      AttachStep s t server .locking
        { s.setFrame t (some (.attach server .checking)) with padlock := true }
  | accept : s.state = .Ready →
      AttachStep s t server .checking (s.setFrame t (some (.attach server .pushing)))
  | refuse : s.state ≠ .Ready →
      AttachStep s t server .checking (s.setFrame t (some (.attach server (.unlocking false))))
  | push : AttachStep s t server .pushing
      { s.setFrame t (some (.attach server (.unlocking true))) with
        servers := s.servers ++ [server] }
  | unlock : AttachStep s t server (.unlocking true) { s.setFrame t none with padlock := false }
  | throw : AttachStep s t server (.unlocking false)
      { s.setFrame t none with padlock := false, threw := s.threw ++ [server.id] }

theorem attachStep_spec {server : ServerContainer} {pc : AttachPc}
    (h : s.attachStep t server pc = some s') : AttachStep s t server pc s' := by
  cases pc with
  | locking =>
    by_cases hp : s.padlock = true
    · simp [attachStep, hp] at h
    · simp only [attachStep, hp] at h
      cases h
      exact .lock (by simpa using hp)
  | checking =>
    by_cases hr : s.state = .Ready
    · simp only [attachStep, hr, if_true] at h
      cases h
      exact .accept hr
    · simp only [attachStep, hr, if_false] at h
      cases h
      exact .refuse hr
  | pushing =>
    simp only [attachStep] at h
    cases h
    exact .push
  | unlocking b =>
    cases b with
    | true =>
      simp only [attachStep] at h
      cases h
      exact .unlock
    | false =>
      simp only [attachStep] at h
      cases h
      exact .throw

/-! ### `run_one_thread_` -/

inductive LoopStep (s : State cfg τ) (w : ℕ) (answer : WorkAnswer) :
    WorkerPc → State cfg τ → Prop
  | stop : answer.predicate = true → LoopStep s w answer .top
      ((s.setFrame (.worker w) (some (.stop .setting))).setWorker w .stopping)
  | pass : LoopStep s w answer .top (s.setWorker w (startPass cfg))
  | stopped : LoopStep s w answer .stopping (s.setWorker w (startPass cfg))
  | pollNone {k i c} : i < s.setSize k → c.current = c.executed →
      LoopStep s w answer (.polling k i c) (s.setWorker w (.polling k (i + 1) c))
  | pollShutdown {k i c} : i < s.setSize k → c.current = c.executed →
      (s.cq (s.queueAt k (nextCqIndex w i (s.setSize k)))).Exhausted →
      LoopStep s w answer (.polling k i c)
        (s.setWorker w (.polling k (i + 1) { c with shutdown := c.shutdown + 1 }))
  | pollEvent {k i c q m e isOk} : i < s.setSize k → c.current = c.executed →
      q = s.queueAt k (nextCqIndex w i (s.setSize k)) → (s.cq q).pending[m]? = some e →
      answer.next = .gotEvent m isOk → LoopStep s w answer (.polling k i c)
        ((s.setCq q { s.cq q with pending := (s.cq q).pending.eraseIdx m }).setWorker w
          (.completing k i c (completionOf isOk e)))
  | nextSet {k i c} : ¬ (i < s.setSize k ∧ c.current = c.executed) → k < s.servers.length →
      LoopStep s w answer (.polling k i c)
        (s.setWorker w (.polling (k + 1) 0
          { c with total := c.total + s.setSize (k + 1), current := c.executed }))
  | polled {k i c} : ¬ (i < s.setSize k ∧ c.current = c.executed) → ¬ k < s.servers.length →
      LoopStep s w answer (.polling k i c) (s.setWorker w (.checking c))
  | complete {k i c what} :
      LoopStep s w answer (.completing k i c what) (s.completeStep w k i c what)
  | leave {c} : c.shutdown = c.total →
      LoopStep s w answer (.checking c) (s.setWorker w (.draining .idle))
  | stay {c} : c.shutdown ≠ c.total →
      LoopStep s w answer (.checking c) (s.setWorker w (.popping .idle))
  | popCall : LoopStep s w answer (.popping .idle)
      ({ s with taskQueue := (s.taskQueue.popCall none).1 }.setWorker w
        (.popping (.probe none s.taskQueue.popIndex 0)))
  | pop {pc q' pc' ev} : PopStep s.taskQueue pc q' pc' ev →
      LoopStep s w answer (.popping pc) ({ s with taskQueue := q' }.setWorker w (.popping pc'))
  | popped {b thunk} :
      LoopStep s w answer (.popping (.returned b (some thunk))) (s.setWorker w (.running thunk))
  | missed {b} : LoopStep s w answer (.popping (.returned b none)) (s.setWorker w .top)
  | run {thunk} : LoopStep s w answer (.running thunk)
      ((s.execute thunk answer.throws answer.work).setWorker w .top)
  | ejectCall : LoopStep s w answer (.draining .idle)
      ({ s with taskQueue := s.taskQueue.ejectCall.1 }.setWorker w (.draining (.sweep 0 [])))
  | eject {pc q' pc' ev} : EjectStep s.taskQueue pc q' pc' ev →
      LoopStep s w answer (.draining pc) ({ s with taskQueue := q' }.setWorker w (.draining pc'))
  | ejected {thunks} :
      LoopStep s w answer (.draining (.returned thunks)) (s.setWorker w (.executing thunks))
  | executeNext {thunk rest} :
      LoopStep s w answer (.executing (thunk :: rest))
        ((s.execute thunk answer.throws answer.work).setWorker w (.executing rest))
  | exit : LoopStep s w answer (.executing []) (s.setWorker w .exited)

/-- The branches of a poll, when the `for` loop goes on. -/
private theorem poll_spec {k i : ℕ} {c : PassCounts} {answer : WorkAnswer} (hi : i < s.setSize k)
    (hc : c.current = c.executed) (h : s.poll w k i c answer.next = some s') :
    LoopStep s w answer (.polling k i c) s' := by
  obtain ⟨⟨r, cq⟩, hr, rfl⟩ := Option.map_eq_some_iff.mp h
  rcases answer with ⟨predicate, next, locked, throws, work⟩
  cases next with
  | timeout =>
    cases hr
    simpa [setCq] using LoopStep.pollNone (w := w) hi hc
  | shutdown =>
    by_cases hex : (s.cq (s.queueAt k (nextCqIndex w i (s.setSize k)))).Exhausted
    · simp only [CompletionQueue.asyncNext, hex, if_true] at hr
      cases hr
      simpa [setCq] using LoopStep.pollShutdown hi hc hex
    · simp [CompletionQueue.asyncNext, hex] at hr
  | gotEvent m isOk =>
    obtain ⟨e, he, heq⟩ := Option.map_eq_some_iff.mp hr
    cases heq
    exact .pollEvent hi hc rfl he rfl

theorem loopStep_spec {pc : WorkerPc} {answer : WorkAnswer}
    (h : s.loopStep w answer pc = some s') : LoopStep s w answer pc s' := by
  cases pc with
  | top =>
    by_cases hp : answer.predicate = true
    · simp only [loopStep, hp, if_true] at h
      cases h
      exact .stop hp
    · simp only [loopStep, hp] at h
      cases h
      exact .pass
  | stopping =>
    simp only [loopStep] at h
    cases h
    exact .stopped
  | polling k i c =>
    simp only [loopStep] at h
    split at h
    · next hgo => exact poll_spec hgo.1 hgo.2 h
    · next hgo =>
      split at h
      · next hk =>
        cases h
        exact .nextSet hgo hk
      · next hk =>
        cases h
        exact .polled hgo hk
  | completing k i c what =>
    simp only [loopStep] at h
    cases h
    exact .complete
  | checking c =>
    by_cases hc : c.shutdown = c.total
    · simp only [loopStep, hc, if_true] at h
      cases h
      exact .leave hc
    · simp only [loopStep, hc, if_false] at h
      cases h
      exact .stay hc
  | popping pc =>
    simp only [loopStep, popStep] at h
    split at h
    · cases h
      exact .popCall
    · cases h
      exact .popped
    · cases h
      exact .missed
    · obtain ⟨⟨q', pc', ev⟩, hr, rfl⟩ := Option.map_eq_some_iff.mp h
      exact .pop (popStep_spec hr)
  | running thunk =>
    simp only [loopStep] at h
    cases h
    exact .run
  | draining pc =>
    simp only [loopStep, drainStep] at h
    split at h
    · cases h
      exact .ejectCall
    · cases h
      exact .ejected
    · obtain ⟨⟨q', pc', ev⟩, hr, rfl⟩ := Option.map_eq_some_iff.mp h
      exact .eject (ejectStep_spec hr)
  | executing rest =>
    cases rest with
    | nil =>
      simp only [loopStep] at h
      cases h
      exact .exit
    | cons thunk rest =>
      simp only [loopStep] at h
      cases h
      exact .executeNext
  | exited => simp [loopStep] at h

/-! ### One step of the system -/

inductive Step (s : State cfg τ) : Act τ → State cfg τ → Prop
  | call {t c} : s.MayCall t → Step s (.call t c) (s.begin t c)
  | push {t thunk pc a q' pc' ev} : s.frame t = some (.push thunk pc) →
      PushStep s.taskQueue pc q' pc' ev → Step s (.api t a) (s.afterPush t thunk q' pc' ev)
  | post {t kind id pc a} : s.frame t = some (.post kind id pc) →
      Step s (.api t a) (s.postStep t kind id a.throws pc)
  | runWhile {t pc a s'} : s.frame t = some (.runWhile pc) → RunStep s t pc s' →
      Step s (.api t a) s'
  | stop {t pc a s'} : s.frame t = some (.stop pc) → StopStep s t pc s' → Step s (.api t a) s'
  | attach {t server pc a s'} : s.frame t = some (.attach server pc) →
      AttachStep s t server pc s' → Step s (.api t a) s'
  | notify {t id pc a s'} : s.frame t = some (.notify id pc) → NotifyStep s t id pc s' →
      Step s (.api t a) s'
  | workEnd {t h a} : s.frame t = some (.work h) →
      Step s (.api t a) (s.workEndStep t h a.stopped)
  | fatal {w a} : w < s.created → s.frame (.worker w) = none → s.Fatal (s.worker w) →
      a.throws = true → Step s (.work w a) { s with terminated := true }
  | work {w pc a s'} : w < s.created → s.frame (.worker w) = none → s.worker w = pc →
      LoopStep s w a pc s' → Step s (.work w a) s'

theorem step_spec {a : Act τ} (h : s.step a = some s') : s.terminated = false ∧ Step s a s' := by
  simp only [step] at h
  split at h
  · exact absurd h (by simp)
  · next hterm =>
    refine ⟨by simpa using hterm, ?_⟩
    cases a with
    | call t c =>
      by_cases hmay : s.MayCall t
      · simp only [hmay, if_true] at h
        cases h
        exact .call hmay
      · simp [hmay] at h
    | api t a =>
      simp only [apiStep] at h
      cases hf : s.frame t with
      | none => simp [hf] at h
      | some f =>
        rw [hf] at h
        cases f with
        | push thunk pc =>
          obtain ⟨q', pc', ev, hpush, rfl⟩ := pushStep_eq h
          exact .push hf hpush
        | post kind id pc =>
          cases h
          exact .post hf
        | runWhile pc => exact .runWhile hf (runStep_spec h)
        | stop pc => exact .stop hf (stopStep_spec h)
        | attach server pc => exact .attach hf (attachStep_spec h)
        | notify id pc => exact .notify hf (registerStep_spec h)
        | work n =>
          cases h
          exact .workEnd hf
    | work w a =>
      simp only [workStep] at h
      split at h
      · next hw =>
        split at h
        · next hfatal =>
          cases h
          exact .fatal hw.1 hw.2 hfatal.2 hfatal.1
        · exact .work hw.1 hw.2 rfl (loopStep_spec h)
      · exact absurd h (by simp)

/-- The end of a detached work concerns the queues only, and the thread leaves it. -/
theorem workEndStep_eq (s : State cfg τ) (t : Tid τ) (h : ℕ) (stopped : Bool) :
    ∃ cq, s.workEndStep t h stopped = { s.setFrame t none with cq := cq } := by
  cases stopped with
  | true => exact ⟨s.cq, rfl⟩
  | false => exact ⟨_, rfl⟩

/-- A reached state and a step from it. -/
theorem reachable_step {a : Act τ} (h : (contextSystem cfg τ).Reachable s)
    (hs : s.step a = some s') : (contextSystem cfg τ).Reachable s' := by
  have hs' : (contextSystem cfg τ).step s a = some s' := hs
  exact h.step trivial hs'

/-! ### The loops of the workers -/

omit [DecidableEq τ] in
/-- Executing a thunk concerns neither the calls nor the workers. -/
theorem execute_eq (s : State cfg τ) (f : Thunk) (throws : Bool) (work : WorkEnd) :
    ∃ cq suspended, s.execute f throws work = { s with
      executed := s.executed ++ [f], signals := s.signals ++ f.signals throws, cq := cq
      suspended := suspended } := by
  rcases f with ⟨id, _ | _ | h⟩
  · exact ⟨s.cq, s.suspended, by simp [execute, Thunk.signals]⟩
  · exact ⟨s.cq, s.suspended, rfl⟩
  · cases work with
    | finished =>
      refine ⟨Function.update s.cq (s.handler h).cq ((s.cq (s.handler h).cq).start (.handler h)),
        s.suspended, ?_⟩
      simp only [execute, Thunk.signals, List.append_nil]
      rfl
    | stopped => exact ⟨s.cq, s.suspended, by simp [execute, Thunk.signals]⟩
    | suspended => exact ⟨s.cq, s.suspended ++ [h], by simp [execute, Thunk.signals]⟩

omit [DecidableEq τ] in
theorem worker_execute {thunk : Thunk} {throws : Bool} {work : WorkEnd} {pc : WorkerPc} :
    ((s.execute thunk throws work).setWorker w pc).worker = Function.update s.worker w pc := by
  obtain ⟨cq, suspended, hexec⟩ := execute_eq s thunk throws work
  rw [hexec]
  rfl

/-- A step inside `complete` counts the event as executed, or stays inside. -/
theorem worker_completeStep (s : State cfg τ) (w k i : ℕ) (c : PassCounts) (what : Completion) :
    ∃ pc, (s.completeStep w k i c what).worker = Function.update s.worker w pc ∧
      (pc = .polling k (i + 1) { c with executed := c.executed + 1 } ∨
        ∃ what', pc = .completing k i c what') := by
  rcases what with ⟨⟨id⟩ | ⟨id⟩ | ⟨h⟩, isOk⟩ | ⟨h, isOk, _ | _ | _⟩
  · exact ⟨_, rfl, Or.inl rfl⟩
  · exact ⟨_, rfl, Or.inl rfl⟩
  · exact ⟨_, rfl, Or.inl rfl⟩
  · simp only [completeStep]
    obtain ⟨cq, handler, nextHandler, harm⟩ := arm_eq s (s.handler h).cq (s.handler h).immediate
    rw [harm]
    split
    · exact ⟨_, rfl, Or.inl rfl⟩
    · exact ⟨_, rfl, Or.inr ⟨_, rfl⟩⟩
  · simp only [completeStep]
    split
    · exact ⟨_, rfl, Or.inl rfl⟩
    · exact ⟨_, rfl, Or.inr ⟨_, rfl⟩⟩
  · exact ⟨_, rfl, Or.inl rfl⟩

/-- A step of a worker moves only this worker. -/
theorem worker_of_loopStep {answer : WorkAnswer} {pc : WorkerPc}
    (h : LoopStep s w answer pc s') : ∃ pc', s'.worker = Function.update s.worker w pc' := by
  cases h with
  | complete =>
    obtain ⟨pc', hpc', -⟩ := worker_completeStep s w _ _ _ _
    exact ⟨pc', hpc'⟩
  | run | executeNext => exact ⟨_, worker_execute⟩
  | stop | pass | stopped | pollNone | pollShutdown | pollEvent | nextSet | polled | leave | stay
  | popCall | pop | popped | missed | ejectCall | eject | ejected | exit => exact ⟨_, rfl⟩

/-- What a worker touches in a step of its loop. -/
theorem loopStep_eq {answer : WorkAnswer} {pc : WorkerPc} (h : LoopStep s w answer pc s') :
    ∃ cq handler nextHandler suspended frame worker taskQueue nextId executed signals completed
        heap,
      s' = { s with
        cq := cq, handler := handler, nextHandler := nextHandler, suspended := suspended
        frame := frame, worker := worker, taskQueue := taskQueue, nextId := nextId
        executed := executed, signals := signals, completed := completed, heap := heap } ∧
      s.nextId ≤ nextId := by
  cases h with
  | @complete _ _ _ what =>
    rcases what with ⟨⟨id⟩ | ⟨id⟩ | ⟨h⟩, isOk⟩ | ⟨h, isOk, _ | _ | _⟩
    · exact ⟨_, _, _, _, _, _, _, _, _, _, _, _, rfl, Nat.le_refl _⟩
    · exact ⟨_, _, _, _, _, _, _, _, _, _, _, _, rfl, Nat.le_refl _⟩
    · exact ⟨_, _, _, _, _, _, _, _, _, _, _, _, rfl, Nat.le_refl _⟩
    · simp only [completeStep]
      obtain ⟨cq, handler, nextHandler, harm⟩ := arm_eq s (s.handler h).cq (s.handler h).immediate
      rw [harm]
      split <;> exact ⟨_, _, _, _, _, _, _, _, _, _, _, _, rfl, Nat.le_refl _⟩
    · simp only [completeStep]
      split
      · exact ⟨_, _, _, _, _, _, _, _, _, _, _, _, rfl, Nat.le_refl _⟩
      · exact ⟨_, _, _, _, _, _, _, _, _, _, _, _, rfl, Nat.le_succ _⟩
    · exact ⟨_, _, _, _, _, _, _, _, _, _, _, _, rfl, Nat.le_refl _⟩
  | @run thunk =>
    obtain ⟨cq, suspended, hexec⟩ := execute_eq s thunk answer.throws answer.work
    rw [hexec]
    exact ⟨_, _, _, _, _, _, _, _, _, _, _, _, rfl, Nat.le_refl _⟩
  | @executeNext thunk =>
    obtain ⟨cq, suspended, hexec⟩ := execute_eq s thunk answer.throws answer.work
    rw [hexec]
    exact ⟨_, _, _, _, _, _, _, _, _, _, _, _, rfl, Nat.le_refl _⟩
  | _ => exact ⟨_, _, _, _, _, _, _, _, _, _, _, _, rfl, Nat.le_refl _⟩

/-- What the loops of the workers do is the same in both states. -/
structure SameLoops (s s' : State cfg τ) : Prop where
  worker : s'.worker = s.worker
  completed : s'.completed = s.completed
  executed : s'.executed = s.executed
  signals : s'.signals = s.signals

/-- A call, or a step inside a member function, is no step of a loop. -/
theorem loop_of_step {a : Act τ} (h : Step s a s') :
    SameLoops s s' ∨ ∃ w answer, a = .work w answer ∧ w < s.created ∧
      s.frame (.worker w) = none ∧ LoopStep s w answer (s.worker w) s' := by
  cases h with
  | @call t c =>
    left
    cases c with
    | postAt | resume =>
      simp only [begin]
      split <;> exact ⟨rfl, rfl, rfl, rfl⟩
    | makeServer wired =>
      obtain ⟨cq, handler, nextHandler, hwire⟩ := wire_eq s s.nextId 0 wired
      simp only [begin, beginAttach, hwire]
      split <;> exact ⟨rfl, rfl, rfl, rfl⟩
    | _ => exact ⟨rfl, rfl, rfl, rfl⟩
  | @push _ _ _ _ _ pc' =>
    left
    cases pc' <;> exact ⟨rfl, rfl, rfl, rfl⟩
  | @post _ _ _ pc a =>
    left
    rcases a with ⟨slot, _ | _, reenters⟩ <;> rcases pc with - | (_ | _) | i | can <;>
      exact ⟨rfl, rfl, rfl, rfl⟩
  | runWhile _ hrun =>
    left
    cases hrun <;> exact ⟨rfl, rfl, rfl, rfl⟩
  | stop _ hstop =>
    left
    cases hstop <;> exact ⟨rfl, rfl, rfl, rfl⟩
  | attach _ hat =>
    left
    cases hat <;> exact ⟨rfl, rfl, rfl, rfl⟩
  | notify _ hnot =>
    left
    cases hnot <;> exact ⟨rfl, rfl, rfl, rfl⟩
  | @workEnd _ _ a =>
    left
    simp only [workEndStep]
    split <;> exact ⟨rfl, rfl, rfl, rfl⟩
  | fatal => exact Or.inl ⟨rfl, rfl, rfl, rfl⟩
  | @work w pc answer _ hw hf hpc hloop => exact Or.inr ⟨w, answer, rfl, hw, hf, hpc ▸ hloop⟩

/-- A step of a worker is one of its loop, unless an exception of the code that runs there
terminates the program. -/
theorem fatal_or_loopStep {answer : WorkAnswer} (h : Step s (.work w answer) s') :
    (s.Fatal (s.worker w) ∧ answer.throws = true ∧ s' = { s with terminated := true }) ∨
      LoopStep s w answer (s.worker w) s' := by
  cases h with
  | fatal _ _ hfatal hthrows => exact Or.inl ⟨hfatal, hthrows, rfl⟩
  | work _ _ hpc hloop => exact Or.inr (hpc ▸ hloop)

/-- A step moves at most one worker, which has not left its loop. -/
theorem worker_of_step {a : Act τ} (h : Step s a s') :
    s'.worker = s.worker ∨ ∃ w answer pc', a = .work w answer ∧ s.worker w ≠ .exited ∧
      s'.worker = Function.update s.worker w pc' := by
  rcases loop_of_step h with hsame | ⟨w, answer, rfl, -, -, hloop⟩
  · exact Or.inl hsame.worker
  · obtain ⟨pc', hpc'⟩ := worker_of_loopStep hloop
    refine Or.inr ⟨w, answer, pc', rfl, fun hexited => ?_, hpc'⟩
    rw [hexited] at hloop
    cases hloop

/-- A worker that has left its loop stays outside. -/
theorem exited_of_step {a : Act τ} (h : Step s a s') (hw : s.worker w = .exited) :
    s'.worker w = .exited := by
  rcases worker_of_step h with heq | ⟨v, _, _, -, hv, heq⟩
  · rw [heq, hw]
  · have hne : w ≠ v := by
      rintro rfl
      exact hv hw
    rw [heq, Function.update_of_ne hne, hw]

/-- Containers are attached by `attach_server` only, and stay. -/
theorem servers_of_step {a : Act τ} (h : Step s a s') : s'.servers = s.servers ∨
    ∃ t server, s.frame t = some (.attach server .pushing) ∧
      s'.servers = s.servers ++ [server] := by
  cases h with
  | @call _ c =>
    left
    cases c with
    | postAt | resume =>
      simp only [begin]
      split <;> rfl
    | makeServer wired =>
      obtain ⟨cq, handler, nextHandler, hwire⟩ := wire_eq s s.nextId 0 wired
      simp only [begin, beginAttach, hwire]
      split <;> rfl
    | _ => rfl
  | @push _ _ _ _ _ pc' =>
    left
    cases pc' <;> rfl
  | @post _ _ _ pc answer =>
    left
    rcases answer with ⟨slot, _ | _, reenters⟩ <;> rcases pc with - | (_ | _) | i | can <;> rfl
  | runWhile _ hrun =>
    left
    cases hrun <;> rfl
  | stop _ hstop =>
    left
    cases hstop <;> rfl
  | @attach t server _ _ _ hf hat =>
    cases hat with
    | push => exact Or.inr ⟨t, server, hf, rfl⟩
    | lock | accept | refuse | unlock | throw => exact Or.inl rfl
  | notify _ hnot =>
    left
    cases hnot <;> rfl
  | workEnd =>
    left
    simp only [workEndStep]
    split <;> rfl
  | fatal => exact Or.inl rfl
  | work _ _ _ hloop =>
    left
    obtain ⟨_, _, _, _, _, _, _, _, _, _, _, _, rfl, -⟩ := loopStep_eq hloop
    rfl

/-- A step of the loop leaves every thread in its member function; the worker may enter one. -/
theorem frame_of_loopStep {answer : WorkAnswer} {pc : WorkerPc} (h : LoopStep s w answer pc s') :
    s'.frame = s.frame ∨
      (s'.frame = Function.update s.frame (.worker w) (some (.stop .setting)) ∧
        s'.worker w = .stopping) ∨
      ∃ thunk k i c h isOk,
        s'.frame = Function.update s.frame (.worker w) (some (.push thunk (.counted thunk))) ∧
          s'.worker w = .completing k i c (.handler h isOk .posting) := by
  cases h with
  | stop => exact Or.inr (Or.inl ⟨rfl, Function.update_self ..⟩)
  | @complete _ _ _ what =>
    rcases what with ⟨⟨id⟩ | ⟨id⟩ | ⟨h⟩, isOk⟩ | ⟨h, isOk, _ | _ | _⟩
    · exact Or.inl rfl
    · exact Or.inl rfl
    · exact Or.inl rfl
    · left
      simp only [completeStep]
      obtain ⟨cq, handler, nextHandler, harm⟩ := arm_eq s (s.handler h).cq (s.handler h).immediate
      rw [harm]
      split <;> rfl
    · simp only [completeStep]
      split
      · exact Or.inl rfl
      · exact Or.inr (Or.inr ⟨_, _, _, _, _, _, rfl, Function.update_self ..⟩)
    · exact Or.inl rfl
  | @run thunk =>
    obtain ⟨cq, suspended, hexec⟩ := execute_eq s thunk answer.throws answer.work
    exact Or.inl (by rw [hexec]; rfl)
  | @executeNext thunk =>
    obtain ⟨cq, suspended, hexec⟩ := execute_eq s thunk answer.throws answer.work
    exact Or.inl (by rw [hexec]; rfl)
  | _ => exact Or.inl rfl

/-- The other threads stay where they are. -/
theorem frame_of_step {a : Act τ} (h : Step s a s') {u : Tid τ} (hu : u ≠ a.thread) :
    s'.frame u = s.frame u := by
  have hmove : ∀ {f}, s'.frame = Function.update s.frame a.thread f → s'.frame u = s.frame u := by
    intro f hframe
    rw [hframe, Function.update_of_ne hu]
  cases h with
  | @call t c =>
    cases c with
    | postAt now deadline =>
      simp only [begin] at hmove ⊢
      split
      · exact Function.update_of_ne hu ..
      · exact Function.update_of_ne hu ..
    | resume h =>
      simp only [begin]
      split
      · exact Function.update_of_ne hu ..
      · rfl
    | makeServer wired =>
      obtain ⟨cq, handler, nextHandler, hwire⟩ := wire_eq s s.nextId 0 wired
      simp only [begin, beginAttach, hwire]
      split
      · rfl
      · exact Function.update_of_ne hu ..
    | _ => exact hmove rfl
  | @push _ _ _ _ _ pc' => cases pc' <;> exact hmove rfl
  | @post _ _ _ pc answer =>
    rcases answer with ⟨slot, _ | _, reenters⟩ <;> rcases pc with - | (_ | _) | i | can <;>
      exact hmove rfl
  | runWhile _ hrun => cases hrun <;> exact hmove rfl
  | stop _ hstop =>
    cases hstop with
    | yield | selfJoin | abort => rfl
    | win | lose | giveUp | proceed | halt | range | join | joined | clear | lock | publish | keep
    | swap | unlock | done | notify
    | resume | reenter | relock | reaccept | rerefuse | repush | reunlock => exact hmove rfl
  | attach _ hat => cases hat <;> exact hmove rfl
  | notify _ hnot => cases hnot <;> exact hmove rfl
  | workEnd =>
    simp only [workEndStep]
    split <;> exact Function.update_of_ne hu ..
  | fatal => rfl
  | work _ _ _ hloop =>
    rcases frame_of_loopStep hloop with hframe | ⟨hframe, -⟩ | ⟨_, _, _, _, _, _, hframe, -⟩
    · rw [hframe]
    · exact hmove hframe
    · exact hmove hframe

/-- A thread that gets on in `stop` has taken a step of it. -/
theorem stopStep_of_step {a : Act τ} (h : Step s a s') {pc : StopPc}
    (hf : s.frame t = some (.stop pc)) (hne : s'.frame t ≠ some (.stop pc)) :
    StopStep s t pc s' := by
  have ht : t = a.thread := by
    by_contra hother
    exact hne ((frame_of_step h hother).trans hf)
  subst ht
  cases h with
  | stop hf' hstop =>
    rw [Act.thread] at hf
    rw [hf'] at hf
    cases hf
    exact hstop
  | call hmay =>
    have hidle := hmay.1
    rw [Act.thread] at hf
    rw [hidle] at hf
    cases hf
  | push hf' | post hf' | runWhile hf' | attach hf' | notify hf' | workEnd hf' =>
    rw [Act.thread] at hf
    rw [hf'] at hf
    cases hf
  | fatal _ hidle | work _ hidle =>
    rw [Act.thread] at hf
    rw [hidle] at hf
    cases hf

end State

end Sgrpc
