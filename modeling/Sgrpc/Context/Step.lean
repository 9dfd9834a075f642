import Sgrpc.Context.State
import Sgrpc.Interleaving.System

/-!
# The member functions of an execution context, one step at a time

`begin` is the call of a member function, `apiStep` one step of the member function a thread is
in, and `workStep` one step of `run_one_thread_`. The nondeterminism of the environment is an
argument of the step: what a lock or the allocator answers, what `AsyncNext` answers, what the
predicate returns. `contextSystem` interleaves the steps of any number of client threads and of
the workers.
-/

namespace Sgrpc

open Interleaving
open OptimisiticLockingQueue (PushAnswer)

/-- A call of a member function, or the end of a detached work that has gone on elsewhere. -/
inductive Call where
  /-- `post(ThunkType)`. -/
  | post
  /-- `start` of a `Scheduler::Op_`, which calls `post(ThunkType)` and ignores the result. -/
  | schedule
  /-- `post(DeadlinedThunkType, time_point)`, with the clock reading in the call. -/
  | postAt (now deadline : ℤ)
  /-- `post(DeadlinedThunkType, nanoseconds)`. -/
  | postAfter (delta : ℤ)
  /-- `post(RpcFactory)`. -/
  | postRpc
  /-- `start` of an RPC operation, whose `invoke` calls `post(RpcFactory)`. -/
  | startRpc
  | runWhile
  | stop
  /-- `GenericServerContainer::make`. For each work queue the handlers that `wire_rpcs` makes on
  it, with their `is_executed_immediately`. -/
  | makeServer (wired : List (List Bool))
  | addNotifyAtStopped
  /-- The detached work of the handler `h` completes on this thread. -/
  | resume (h : ℕ)
  deriving DecidableEq

/-- What the environment answers to a step of a member function. -/
structure ApiAnswer where
  /-- To a `try_push`. -/
  slot : PushAnswer
  /-- Whether the factory, or the allocation of the `Alarm`, throws. -/
  throws : Bool
  /-- Whether the notification being executed calls `add_notify_at_stopped` (again). -/
  reenters : Bool
  /-- Whether the detached work completes with `set_stopped`. -/
  stopped : Bool
  deriving DecidableEq

/-- What the environment answers to a step of a worker. -/
structure WorkAnswer where
  predicate : Bool
  next : NextAnswer
  /-- Whether a `try_pop` gets the lock. -/
  locked : Bool
  /-- Whether the code that the worker runs throws: that of the user, the `set_value` of a receiver,
  or the allocator. -/
  throws : Bool
  /-- What the thunk of a detached work comes to. -/
  work : WorkEnd
  deriving DecidableEq

/-- The actions: a thread calls a member function, takes a step in the one it is in, or a worker
takes a step of its loop. -/
inductive Act (τ : Type*) where
  | call (t : Tid τ) (c : Call)
  | api (t : Tid τ) (answer : ApiAnswer)
  | work (w : ℕ) (answer : WorkAnswer)
  deriving DecidableEq

/-- The thread that takes the step. -/
def Act.thread {τ : Type*} : Act τ → Tid τ
  | .call t _ | .api t _ => t
  | .work w _ => .worker w

namespace State

variable {cfg : Config} {τ : Type*} [DecidableEq τ]

def setFrame (s : State cfg τ) (t : Tid τ) (f : Option Frame) : State cfg τ :=
  { s with frame := Function.update s.frame t f }

def setWorker (s : State cfg τ) (w : ℕ) (pc : WorkerPc) : State cfg τ :=
  { s with worker := Function.update s.worker w pc }

def setCq (s : State cfg τ) (q : QueueId) (cq : CompletionQueue) : State cfg τ :=
  { s with cq := Function.update s.cq q cq }

def setHandler (s : State cfg τ) (h : ℕ) (hd : Handler) : State cfg τ :=
  { s with handler := Function.update s.handler h hd }

/-! ### Handlers -/

/-- `new ServerRpcHandler`: its constructor binds the request to the queue. -/
def arm (s : State cfg τ) (q : QueueId) (immediate : Bool) : State cfg τ :=
  { (s.setHandler s.nextHandler ⟨q, immediate, false⟩).setCq q
      ((s.cq q).start (.handler s.nextHandler)) with
    nextHandler := s.nextHandler + 1 }

/-- `response_writer_.Finish` of the handler `h`. -/
def finish (s : State cfg τ) (h : ℕ) : State cfg τ :=
  s.setCq (s.handler h).cq ((s.cq (s.handler h).cq).start (.handler h))

/-- The handlers that one call of `wire_rpcs` makes on the queue. -/
def wireRpcs (s : State cfg τ) (q : QueueId) (wired : List Bool) : State cfg τ :=
  wired.foldl (fun s immediate => s.arm q immediate) s

/-- `init` calls `wire_rpcs` for each work queue of the new container, from queue `j` on. -/
def wire (s : State cfg τ) (id : ℕ) : ℕ → List (List Bool) → State cfg τ
  | _, [] => s
  | j, wired :: rest => (s.wireRpcs (.server id j) wired).wire id (j + 1) rest

/-! ### Calls -/

/-- `post(ThunkType)`: the call of `task_queue_.push`. -/
def beginPush (s : State cfg τ) (t : Tid τ) (body : ThunkBody) : State cfg τ :=
  let thunk := ⟨s.nextId, body⟩
  let r := s.taskQueue.pushCall thunk
  { s.setFrame t (some (.push thunk r.2)) with taskQueue := r.1, nextId := s.nextId + 1 }

/-- The other two `post` overloads: `within_cq_post_.fetch_add(1)`. -/
def beginPost (s : State cfg τ) (t : Tid τ) (kind : PostKind) : State cfg τ :=
  { s.setFrame t (some (.post kind s.nextId .counted)) with
    withinCqPost := s.withinCqPost + 1
    nextId := s.nextId + 1 }

/-- `GenericServerContainer::make`: the call of `attach_server`, unless `init` throws. Until then
nobody else knows the container. -/
def beginAttach (s : State cfg τ) (t : Tid τ) (wired : List (List Bool)) : State cfg τ :=
  let id := s.nextId
  if wired = [] then { s with threw := s.threw ++ [id], nextId := id + 1 }
  else
    { (s.wire id 0 wired).setFrame t (some (.attach ⟨id, wired.length⟩ .locking)) with
      nextId := id + 1 }

/-- The call of a member function. -/
def begin (s : State cfg τ) (t : Tid τ) : Call → State cfg τ
  | .post => s.beginPush t .user
  | .schedule => s.beginPush t .complete
  | .postAt now deadline =>
      if now ≤ deadline then s.beginPush t .user else s.beginPost t (.alarm (deadline - now))
  | .postAfter delta => s.beginPost t (.alarm delta)
  | .postRpc => s.beginPost t (.rpc false)
  | .startRpc => s.beginPost t (.rpc true)
  | .runWhile => s.setFrame t (some (.runWhile .locking))
  | .stop => s.setFrame t (some (.stop .setting))
  | .makeServer wired => s.beginAttach t wired
  | .addNotifyAtStopped =>
      { s.setFrame t (some (.notify s.nextId .locking)) with nextId := s.nextId + 1 }
  | .resume h =>
      if h ∈ s.suspended then
        { s.setFrame t (some (.work h)) with suspended := s.suspended.erase h }
      else s

/-! ### Steps of the member functions -/

/-- What the `push` calls have read from `is_done_`, after the events of one step. -/
def recordTests (tested : Thunk → Option Bool) (ev : List (QueueEvent Thunk)) :
    Thunk → Option Bool :=
  ev.foldl (fun tested e =>
    match e with
    | .tested f isDone => Function.update tested f (some isDone)
    | _ => tested) tested

/-- `post(ThunkType)`. An exception leaves `post`, but neither `Op_::start` nor the start of a
detached work, which are `noexcept`. -/
def pushStep (s : State cfg τ) (t : Tid τ) (thunk : Thunk) (pc : PushPc Thunk)
    (answer : PushAnswer) : Option (State cfg τ) :=
  (s.taskQueue.pushStep answer pc).map fun r =>
    let s := { s with taskQueue := r.1, tested := recordTests s.tested r.2.2 }
    match r.2.1 with
    | .returned accepted _ =>
        { s.setFrame t none with
          returned := Function.update s.returned thunk (some accepted) }
    | .threw _ => { s.setFrame t none with
        threw := s.threw ++ [thunk.id]
        terminated := thunk.body ≠ .user }
    | pc => s.setFrame t (some (.push thunk pc))

/-- `post(RpcFactory)` and `post(DeadlinedThunkType, nanoseconds)`. An exception leaves `post`, but
not the `invoke` of an RPC operation. -/
def postStep (s : State cfg τ) (t : Tid τ) (kind : PostKind) (id : ℕ) (throws : Bool) :
    PostPc → State cfg τ
  | .counted => s.setFrame t (some (.post kind id (.decided s.state.canPost)))
  | .decided true =>
      { s.setFrame t (some (.post kind id (.creating (s.nextCqWriteIndex % cfg.nCqs)))) with
        nextCqWriteIndex := (s.nextCqWriteIndex + 1) % 2 ^ 64 }
  | .decided false => s.setFrame t (some (.post kind id (.leaving false)))
  | .creating i =>
      let s := { s with invoked := s.invoked ++ [kind.event id] }
      if throws then
        -- `within_cq_post_` keeps the increment
        { s.setFrame t none with threw := s.threw ++ [id], terminated := kind.isNoexcept }
      else
        { (s.setCq (.own i) ((s.cq (.own i)).start (kind.event id))).setFrame t
            (some (.post kind id (.leaving true))) with
          made := s.made ++ [kind.event id]
          heap := s.heap ++ [kind.event id] }
  | .leaving can =>
      { s.setFrame t none with
        withinCqPost := s.withinCqPost - 1
        posted := Function.update s.posted (kind.event id) (some can) }

/-- `run_while`. -/
def runStep (s : State cfg τ) (t : Tid τ) : RunPc → Option (State cfg τ)
  | .locking =>
      if s.padlock then none
      else some { s.setFrame t (some (.runWhile .setting)) with padlock := true }
  | .setting =>
      match s.state.setState .Running with
      | some st => some { s.setFrame t (some (.runWhile (.unlocking true))) with state := st }
      | none => some (s.setFrame t (some (.runWhile (.unlocking false))))
  | .unlocking true => some { s.setFrame t (some (.runWhile (.spawning 0))) with padlock := false }
  | .unlocking false => some { s.setFrame t none with padlock := false }
  | .spawning i =>
      if i < cfg.nThreads then
        some { s.setFrame t (some (.runWhile (.storing i))) with created := s.created + 1 }
      else some (s.setFrame t none)
  | .storing i =>
      some { s.setFrame t (some (.runWhile (.spawning (i + 1)))) with
        threads := s.threads ++ [i] }

/-- `add_notify_at_stopped`: the frame of the call at each point, and the one it returns to. -/
def registerStep (s : State cfg τ) (t : Tid τ) (id : ℕ) (inside : NotifyPc → Frame)
    (after : Option Frame) : NotifyPc → Option (State cfg τ)
  | .locking =>
      if s.padlock then none
      else some { s.setFrame t (some (inside .checking)) with padlock := true }
  | .checking =>
      if s.state.toInt < ExecutionState.Stopped.toInt then
        some (s.setFrame t (some (inside .pushing)))
      else some (s.setFrame t (some (inside .unlocking)))
  | .pushing =>
      some { s.setFrame t (some (inside .unlocking)) with
        notifications := s.notifications ++ [id]
        registered := s.registered ++ [id] }
  | .unlocking => some { s.setFrame t after with padlock := false }

/-- `stop`. A thread that joins itself gets an exception that nothing catches, and so does the
destruction of a thread that has not been joined. -/
def stopStep (s : State cfg τ) (t : Tid τ) (reenters : Bool) : StopPc → Option (State cfg τ)
  | .setting =>
      match s.state.setState .ShuttingDown with
      | some st => some { s.setFrame t (some (.stop .waiting)) with state := st }
      | none => some (s.setFrame t (some (.stop .lost)))
  | .lost => some (s.setFrame t none)
  | .waiting =>
      if s.withinCqPost > 0 then some s else some (s.setFrame t (some (.stop (.halting 0))))
  | .halting k =>
      match s.allQueues[k]? with
      | some q => some ((s.setCq q (s.cq q).shutdown).setFrame t (some (.stop (.halting (k + 1)))))
      | none => some (s.setFrame t (some (.stop (.joining 0 s.threads.length))))
  | .joining k last =>
      if k < last then
        (s.threads[k]?).bind fun w =>
          if t = .worker w then some { s with terminated := true }
          else if s.worker w = .exited then
            some { s.setFrame t (some (.stop (.joining (k + 1) last))) with
              joins := Function.update s.joins w (s.joins w + 1) }
          else none
      else some (s.setFrame t (some (.stop .clearing)))
  | .clearing =>
      if ∀ w ∈ s.threads, 0 < s.joins w then
        some { s.setFrame t (some (.stop .locking)) with threads := [] }
      else some { s with terminated := true }
  | .locking =>
      if s.padlock then none
      else some { s.setFrame t (some (.stop .publishing)) with padlock := true }
  | .publishing =>
      match s.state.setState .Stopped with
      | some st => some { s.setFrame t (some (.stop .swapping)) with state := st }
      | none => some (s.setFrame t (some (.stop .swapping)))
  | .swapping =>
      some { s.setFrame t (some (.stop (.unlocking s.notifications))) with notifications := [] }
  | .unlocking ns => some { s.setFrame t (some (.stop (.notifying ns))) with padlock := false }
  | .notifying [] => some (s.setFrame t none)
  | .notifying (n :: ns) =>
      some { s.setFrame t (some (.stop (.inNotification ns))) with notified := s.notified ++ [n] }
  | .inNotification ns =>
      if reenters then
        some { s.setFrame t (some (.stop (.registering s.nextId .locking ns))) with
          nextId := s.nextId + 1 }
      else some (s.setFrame t (some (.stop (.notifying ns))))
  | .registering id pc ns =>
      s.registerStep t id (fun pc => .stop (.registering id pc ns))
        (some (.stop (.inNotification ns))) pc

/-- `attach_server`. -/
def attachStep (s : State cfg τ) (t : Tid τ) (server : ServerContainer) :
    AttachPc → Option (State cfg τ)
  | .locking =>
      if s.padlock then none
      else some { s.setFrame t (some (.attach server .checking)) with padlock := true }
  | .checking =>
      if s.state = .Ready then some (s.setFrame t (some (.attach server .pushing)))
      else some (s.setFrame t (some (.attach server (.unlocking false))))
  | .pushing =>
      some { s.setFrame t (some (.attach server (.unlocking true))) with
        servers := s.servers ++ [server] }
  | .unlocking true => some { s.setFrame t none with padlock := false }
  | .unlocking false =>
      some { s.setFrame t none with padlock := false, threw := s.threw ++ [server.id] }

/-- `add_notify_at_stopped`, called by the thread itself. -/
def notifyStep (s : State cfg τ) (t : Tid τ) (id : ℕ) : NotifyPc → Option (State cfg τ) :=
  s.registerStep t id (.notify id) none

/-- A detached work completes, with a value or an error unless it is stopped. -/
def workEndStep (s : State cfg τ) (t : Tid τ) (h : ℕ) (stopped : Bool) : State cfg τ :=
  if stopped then s.setFrame t none else (s.finish h).setFrame t none

/-- One step of the member function the thread is in. -/
def apiStep (s : State cfg τ) (t : Tid τ) (answer : ApiAnswer) : Option (State cfg τ) :=
  match s.frame t with
  | none => none
  | some (.push thunk pc) => s.pushStep t thunk pc answer.slot
  | some (.post kind id pc) => some (s.postStep t kind id answer.throws pc)
  | some (.runWhile pc) => s.runStep t pc
  | some (.stop pc) => s.stopStep t answer.reenters pc
  | some (.attach server pc) => s.attachStep t server pc
  | some (.notify id pc) => s.notifyStep t id pc
  | some (.work h) => some (s.workEndStep t h answer.stopped)

/-! ### Steps of a worker -/

/-- A pass begins with the set `cqs_`. -/
def startPass (cfg : Config) : WorkerPc := .polling 0 0 ⟨0, 0, cfg.nCqs, 0⟩

/-- `next_cq_index`, the sum being computed in 32 bits. -/
def nextCqIndex (threadNumber i size : ℕ) : ℕ := (threadNumber + i) % unsignedSize % size

/-- The `complete(is_ok)` that is entered for the event. -/
def completionOf (isOk : Bool) : Event → Completion
  | .handler h => .handler h isOk .entered
  | e => .client e isOk

/-- `execute_cq_` on the `i`-th queue to probe of set `k`. -/
def poll (s : State cfg τ) (w k i : ℕ) (c : PassCounts) (answer : NextAnswer) :
    Option (State cfg τ) :=
  let q := s.queueAt k (nextCqIndex w i (s.setSize k))
  ((s.cq q).asyncNext answer).map fun r =>
    let s := s.setCq q r.2
    match r.1 with
    | some (e, isOk) => s.setWorker w (.completing k i c (completionOf isOk e))
    | none =>
        match answer with
        | .shutdown => s.setWorker w (.polling k (i + 1) { c with shutdown := c.shutdown + 1 })
        | _ => s.setWorker w (.polling k (i + 1) c)

/-- The thunk has been executed. That of `Scheduler::Op_` calls `set_value`, and `set_error` when
this throws. -/
def execute (s : State cfg τ) (thunk : Thunk) (throws : Bool) (work : WorkEnd) : State cfg τ :=
  let s := { s with executed := s.executed ++ [thunk] }
  match thunk.body with
  | .user => s
  | .complete =>
      { s with signals := s.signals ++ [(thunk.id, if throws then .set_error else .set_value)] }
  | .finish h =>
      match work with
      | .finished => s.finish h
      | .stopped => s
      | .suspended => { s with suspended := s.suspended ++ [h] }

/-- One step inside `complete`, for the `i`-th queue probed of set `k`. -/
def completeStep (s : State cfg τ) (w k i : ℕ) (c : PassCounts) : Completion → State cfg τ
  | .client (.inflightRpc id) _ => -- `delete this`
      { s.setWorker w (.polling k (i + 1) { c with executed := c.executed + 1 }) with
        completed := s.completed ++ [.inflightRpc id]
        heap := s.heap.erase (.inflightRpc id) }
  | .client e _ =>
      { s.setWorker w (.polling k (i + 1) { c with executed := c.executed + 1 }) with
        completed := s.completed ++ [e] }
  | .handler h isOk .entered =>
      let hd := s.handler h
      if hd.deleteOnNextComplete || !isOk then -- `delete this`
        s.setWorker w (.polling k (i + 1) { c with executed := c.executed + 1 })
      else
        let s := s.arm hd.cq hd.immediate
        (s.setHandler h { s.handler h with deleteOnNextComplete := true }).setWorker w
          (.completing k i c (.handler h isOk .armed))
  | .handler h isOk .armed =>
      if (s.handler h).immediate then
        (s.finish h).setWorker w (.polling k (i + 1) { c with executed := c.executed + 1 })
      else
        (s.beginPush (.worker w) (.finish h)).setWorker w
          (.completing k i c (.handler h isOk .posting))
  | .handler _ _ .posting =>
      s.setWorker w (.polling k (i + 1) { c with executed := c.executed + 1 })

/-- `task_queue_.try_pop(thunk)`. -/
def popStep (s : State cfg τ) (w : ℕ) (locked : Bool) : PopPc Thunk → Option (State cfg τ)
  | .idle =>
      let r := s.taskQueue.popCall none
      some ({ s with taskQueue := r.1 }.setWorker w (.popping r.2))
  | .returned _ (some thunk) => some (s.setWorker w (.running thunk))
  | .returned _ none => some (s.setWorker w .top)
  | pc => (s.taskQueue.popStep locked pc).map fun r =>
      { s with taskQueue := r.1 }.setWorker w (.popping r.2.1)

/-- `task_queue_.stop_and_eject()`. -/
def drainStep (s : State cfg τ) (w : ℕ) : EjectPc Thunk → Option (State cfg τ)
  | .idle =>
      let r := s.taskQueue.ejectCall
      some ({ s with taskQueue := r.1 }.setWorker w (.draining r.2))
  | .returned thunks => some (s.setWorker w (.executing thunks))
  | pc => (s.taskQueue.ejectStep pc).map fun r =>
      { s with taskQueue := r.1 }.setWorker w (.draining r.2.1)

/-- One step of `run_one_thread_`. -/
def loopStep (s : State cfg τ) (w : ℕ) (answer : WorkAnswer) : WorkerPc → Option (State cfg τ)
  | .top =>
      if answer.predicate then
        some ((s.setFrame (.worker w) (some (.stop .setting))).setWorker w .stopping)
      else some (s.setWorker w (startPass cfg))
  | .stopping => some (s.setWorker w (startPass cfg))
  | .polling k i c =>
      if i < s.setSize k ∧ c.current = c.executed then s.poll w k i c answer.next
      else if k < s.servers.length then
        some (s.setWorker w (.polling (k + 1) 0
          { c with total := c.total + s.setSize (k + 1), current := c.executed }))
      else some (s.setWorker w (.checking c))
  | .completing k i c what => some (s.completeStep w k i c what)
  | .checking c =>
      if c.shutdown = c.total then some (s.setWorker w (.draining .idle))
      else some (s.setWorker w (.popping .idle))
  | .popping pc => s.popStep w answer.locked pc
  | .running thunk => some ((s.execute thunk answer.throws answer.work).setWorker w .top)
  | .draining pc => s.drainStep w pc
  | .executing [] => some (s.setWorker w .exited)
  | .executing (thunk :: rest) =>
      some ((s.execute thunk answer.throws answer.work).setWorker w (.executing rest))
  | .exited => none

/-- An exception of the code that runs here leaves the thread or a `noexcept` function, or it gets
to the handler of the loop, which terminates: that of a predicate or a thunk of the user, of the
thunk of an `Alarm`, of the constructor of a successor, of logic that is to return a sender, and of
the allocator in `stop_and_eject`. -/
def Fatal (s : State cfg τ) : WorkerPc → Prop
  | .top | .completing _ _ _ (.client (.alarm _) _) | .draining .idle => True
  | .draining (.sweep i _) => i ≠ cfg.nTaskQueues
  | .completing _ _ _ (.handler h isOk .entered) =>
      (s.handler h).deleteOnNextComplete = false ∧ isOk = true
  | .completing _ _ _ (.handler h _ .armed) => (s.handler h).immediate = false
  | .running thunk | .executing (thunk :: _) => thunk.body = .user
  | _ => False

instance (s : State cfg τ) : DecidablePred s.Fatal
  | .top | .completing _ _ _ (.client (.alarm _) _) | .draining .idle => isTrue trivial
  | .draining (.sweep i _) => inferInstanceAs (Decidable (i ≠ cfg.nTaskQueues))
  | .completing _ _ _ (.handler h isOk .entered) =>
      inferInstanceAs (Decidable ((s.handler h).deleteOnNextComplete = false ∧ isOk = true))
  | .completing _ _ _ (.handler h _ .armed) =>
      inferInstanceAs (Decidable ((s.handler h).immediate = false))
  | .running thunk | .executing (thunk :: _) => inferInstanceAs (Decidable (thunk.body = .user))
  | .stopping | .polling _ _ _ | .completing _ _ _ (.client (.inflightRpc _) _)
  | .completing _ _ _ (.client (.handler _) _) | .completing _ _ _ (.handler _ _ .posting)
  | .checking _ | .popping _ | .draining (.returned _) | .executing [] | .exited => isFalse id

/-- A step of worker `w`, which waits for the member function it has called. -/
def workStep (s : State cfg τ) (w : ℕ) (answer : WorkAnswer) : Option (State cfg τ) :=
  if w < s.created ∧ s.frame (.worker w) = none then
    if answer.throws = true ∧ s.Fatal (s.worker w) then some { s with terminated := true }
    else s.loopStep w answer (s.worker w)
  else none

/-! ### The system -/

/-- Who may call a member function: a client, or a worker in code of the user, that is not
inside another one. -/
def MayCall (s : State cfg τ) (t : Tid τ) : Prop :=
  s.frame t = none ∧
    match t with
    | .client _ => True
    | .worker w => w < s.created ∧ (s.worker w).InUserCode

instance (s : State cfg τ) (t : Tid τ) : Decidable (s.MayCall t) := by
  unfold MayCall
  cases t <;> infer_instance

/-- One step of one thread. Nothing happens after `std::terminate`. -/
def step (s : State cfg τ) (a : Act τ) : Option (State cfg τ) :=
  if s.terminated then none
  else match a with
    | .call t c => if s.MayCall t then some (s.begin t c) else none
    | .api t answer => s.apiStep t answer
    | .work w answer => s.workStep w answer

end State

/-- An execution context used by any number of client threads `τ`, with its workers. -/
def contextSystem (cfg : Config) (τ : Type*) [DecidableEq τ] : System (State cfg τ) (Act τ) where
  Init s := s = .initial
  step := State.step

end Sgrpc
