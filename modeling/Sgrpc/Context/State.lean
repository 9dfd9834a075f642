import Mathlib.Data.Int.Notation
import Sgrpc.Queue.TaskStealingQueue

/-!
# The state of an execution context

The members of `ExecutionContext`, the program counters of its member functions, and the part
of the outside world they act on: the completion queues and the events pending in them, and the
server-side handlers with the detached works of theirs that go on elsewhere.

A thread is a `client`, or a `worker` created by `run_while`. Each of them is inside at most one
member function at a time, recorded in `frame`; a worker also has the program counter of
`run_one_thread_`, and when the code it runs there (a predicate, a thunk, a completion) calls a
member function, its frame is that call and its loop waits for it. Counters of calls in progress
and of polled queues are natural numbers; the rotating index of a poll is the 32-bit sum of the
source, and the index of the next queue to post to is a 64-bit one.
-/

namespace Sgrpc

/-! ### Life cycle -/

inductive ExecutionState where
  | Ready
  | Running
  | ShuttingDown
  | Stopped
  deriving DecidableEq

namespace ExecutionState

/-- The value of the enumerator. -/
def toInt : ExecutionState → ℕ
  | Ready => 0
  | Running => 1
  | ShuttingDown => 2
  | Stopped => 3

/-- `set_state_`: the state after a successful compare-exchange, `none` when it fails. -/
def setState (current : ExecutionState) : ExecutionState → Option ExecutionState
  | Ready => none
  | Running => if current = Ready then some Running else none
  | ShuttingDown => if current = Running then some ShuttingDown else none
  | Stopped => if current = ShuttingDown then some Stopped else none

/-- `get_state() <= ExecutionState::Running`. -/
def canPost (s : ExecutionState) : Bool := s.toInt ≤ Running.toInt

end ExecutionState

/-- The arguments of the constructor. The number of queues is an `unsigned` there. -/
structure Config where
  nThreads : ℕ
  nCqs : ℕ
  nThreads_pos : 0 < nThreads
  nCqs_pos : 0 < nCqs
  nCqs_le : nCqs ≤ unsignedSize

/-- `task_queue_{n_threads + 1}`: its number of sub-queues. -/
def Config.nTaskQueues (cfg : Config) : ℕ := (cfg.nThreads + 1) % unsignedSize

/-! ### What is posted -/

/-- What a thunk in the task queue does. -/
inductive ThunkBody where
  /-- A thunk of the user. -/
  | user
  /-- The thunk of `Scheduler::Op_`. -/
  | complete
  /-- The detached work of the server handler `h`, which calls `response_writer_.Finish` when it
  completes with a value or an error. -/
  | finish (h : ℕ)
  deriving DecidableEq

/-- A thunk, named after the `post` call that brought it. -/
structure Thunk where
  id : ℕ
  body : ThunkBody
  deriving DecidableEq

/-- The signals that the thunk of `Scheduler::Op_` sends to its receiver. -/
inductive Signal where
  | set_value
  | set_error
  deriving DecidableEq

/-- A completion-queue event: the objects made by `post`, named after the call, and the
server-side handlers. -/
inductive Event where
  | inflightRpc (id : ℕ)
  | alarm (id : ℕ)
  | handler (h : ℕ)
  deriving DecidableEq

/-! ### Completion queues -/

/-- The queues a worker polls: `cqs_`, and the work queues of the server containers. -/
inductive QueueId where
  | own (i : ℕ)
  | server (id j : ℕ)
  deriving DecidableEq

/-- A completion queue: the events that have been started on it and not been handed out yet.
`late` records that an operation was started on it after its `Shutdown()`. -/
structure CompletionQueue where
  isShutdown : Bool
  pending : List Event
  late : Bool
  deriving DecidableEq

/-- What `AsyncNext` answers. -/
inductive NextAnswer where
  | timeout
  | shutdown
  /-- The `k`-th pending event, with its `is_ok`. -/
  | gotEvent (k : ℕ) (isOk : Bool)
  deriving DecidableEq

namespace CompletionQueue

/-- A new queue. -/
def empty : CompletionQueue := ⟨false, [], false⟩

/-- Start an operation whose tag is `e`. -/
def start (cq : CompletionQueue) (e : Event) : CompletionQueue :=
  { cq with pending := cq.pending ++ [e], late := cq.late || cq.isShutdown }

/-- `Shutdown()`. -/
def shutdown (cq : CompletionQueue) : CompletionQueue := { cq with isShutdown := true }

/-- The queue was shut down and all of its events have been handed out. -/
def Exhausted (cq : CompletionQueue) : Prop := cq.isShutdown = true ∧ cq.pending = []

instance : DecidablePred Exhausted := fun _ => inferInstanceAs (Decidable (_ ∧ _))

/-- `AsyncNext`: the event handed out, if any, with its `is_ok`, and the queue afterwards.
`none` when the queue cannot answer so: it reports `SHUTDOWN` only when it is exhausted. -/
def asyncNext (cq : CompletionQueue) : NextAnswer → Option (Option (Event × Bool) × CompletionQueue)
  | .timeout => some (none, cq)
  | .shutdown => if cq.Exhausted then some (none, cq) else none
  | .gotEvent k isOk =>
      (cq.pending[k]?).map fun e => (some (e, isOk), { cq with pending := cq.pending.eraseIdx k })

end CompletionQueue

/-! ### Server-side handlers -/

/-- A `ServerRpcHandler` on the heap. -/
structure Handler where
  cq : QueueId
  /-- `is_executed_immediately`: the logic returns the response, not a sender. -/
  immediate : Bool
  deleteOnNextComplete : Bool
  deriving DecidableEq

/-- A `ServerContainerInterface`, with the size of its `get_work_queues()`. -/
structure ServerContainer where
  id : ℕ
  nQueues : ℕ
  deriving DecidableEq

/-- What the thunk of a detached work comes to. -/
inductive WorkEnd where
  /-- The work has completed with a value or an error. -/
  | finished
  /-- The work has completed with `set_stopped`. -/
  | stopped
  /-- The work goes on elsewhere. -/
  | suspended
  deriving DecidableEq

/-! ### Program counters of the member functions -/

/-- `post(RpcFactory)` and `post(DeadlinedThunkType, nanoseconds)`. -/
inductive PostPc where
  /-- `within_cq_post_` has been incremented; the state is read next. -/
  | counted
  | decided (canPost : Bool)
  /-- The event is created on queue `i` next. -/
  | creating (i : ℕ)
  /-- `within_cq_post_.fetch_sub` is next. -/
  | leaving (canPost : Bool)
  deriving DecidableEq

/-- `run_while`. -/
inductive RunPc where
  | locking
  | setting
  | unlocking (won : Bool)
  /-- Thread `i` is created next. -/
  | spawning (i : ℕ)
  /-- Thread `i` has been created and is moved into `threads_` next. -/
  | storing (i : ℕ)
  deriving DecidableEq

/-- `add_notify_at_stopped`. -/
inductive NotifyPc where
  | locking
  | checking
  | pushing
  | unlocking
  deriving DecidableEq

/-- `stop`. -/
inductive StopPc where
  | setting
  /-- The compare-exchange has failed; `stop` returns next. -/
  | lost
  /-- Waits for `within_cq_post_ == 0`. -/
  | waiting
  /-- The `k`-th queue is shut down next. -/
  | halting (k : ℕ)
  /-- The range-for over `threads_`, at `k`, the end having been read as `last`. -/
  | joining (k last : ℕ)
  | clearing
  | locking
  | publishing
  | swapping
  | unlocking (notifications : List ℕ)
  | notifying (notifications : List ℕ)
  /-- Executes a notification; the others are left. -/
  | inNotification (notifications : List ℕ)
  /-- The notification has called `add_notify_at_stopped`. -/
  | registering (id : ℕ) (pc : NotifyPc) (notifications : List ℕ)
  deriving DecidableEq

/-- `attach_server`. -/
inductive AttachPc where
  | locking
  | checking
  | pushing
  | unlocking (attached : Bool)
  deriving DecidableEq

/-- The two overloads of `post` that make an event. -/
inductive PostKind where
  /-- With whether the caller is the `invoke` of an RPC operation, which is `noexcept`. -/
  | rpc (operation : Bool)
  /-- With the delay, in nanoseconds. -/
  | alarm (delta : ℤ)
  deriving DecidableEq

/-- The event the `post` call makes. -/
def PostKind.event : PostKind → ℕ → Event
  | .rpc _, id => .inflightRpc id
  | .alarm _, id => .alarm id

/-- No exception can leave the caller. -/
def PostKind.isNoexcept : PostKind → Bool
  | .rpc operation => operation
  | .alarm _ => false

/-- A call of a member function in progress, or the end of a detached work that has gone on
elsewhere. -/
inductive Frame where
  | push (thunk : Thunk) (pc : PushPc Thunk)
  | post (kind : PostKind) (id : ℕ) (pc : PostPc)
  | runWhile (pc : RunPc)
  | stop (pc : StopPc)
  | attach (server : ServerContainer) (pc : AttachPc)
  | notify (id : ℕ) (pc : NotifyPc)
  /-- The work of the handler `h` completes next. -/
  | work (h : ℕ)
  deriving DecidableEq

/-! ### Program counter of a worker -/

/-- The counters of one pass of `run_one_thread_`. -/
structure PassCounts where
  executed : ℕ
  shutdown : ℕ
  total : ℕ
  /-- `current_count` of the present set of queues. -/
  current : ℕ
  deriving DecidableEq

/-- Where `ServerRpcHandler::complete` is. -/
inductive Stage where
  | entered
  /-- The successor has been constructed. -/
  | armed
  /-- The detached work has been handed to `post`. -/
  | posting
  deriving DecidableEq

/-- The `complete(is_ok)` being executed. -/
inductive Completion where
  /-- Of an `InflightRpc` or an `Alarm`: code of the user. -/
  | client (e : Event) (isOk : Bool)
  | handler (h : ℕ) (isOk : Bool) (stage : Stage)
  deriving DecidableEq

/-- `run_one_thread_`. -/
inductive WorkerPc where
  /-- `predicate()` is next. -/
  | top
  /-- In `stop()`. -/
  | stopping
  /-- `run_completion_queues` on the `k`-th set of queues, at `i`. -/
  | polling (k i : ℕ) (c : PassCounts)
  | completing (k i : ℕ) (c : PassCounts) (what : Completion)
  /-- `shutdown_cq_count == total_cq_count` is next. -/
  | checking (c : PassCounts)
  | popping (pc : PopPc Thunk)
  | running (thunk : Thunk)
  | draining (pc : EjectPc Thunk)
  /-- Executes the ejected thunks. -/
  | executing (rest : List Thunk)
  | exited
  deriving DecidableEq

/-- The worker is in code of the user, which may call member functions. -/
def WorkerPc.InUserCode : WorkerPc → Prop
  | .top | .running _ | .executing (_ :: _) => True
  | .completing _ _ _ (.client _ _) | .completing _ _ _ (.handler _ _ .armed) => True
  | _ => False

instance : DecidablePred WorkerPc.InUserCode := fun pc => by
  unfold WorkerPc.InUserCode
  split <;> infer_instance

/-! ### The state -/

/-- The threads that use a context. -/
inductive Tid (τ : Type*) where
  | client (t : τ)
  | worker (w : ℕ)
  deriving DecidableEq

/-- The whole state: the members of the context, the world around it, the control of every
thread, and the history of the run. -/
structure State (cfg : Config) (τ : Type*) where
  -- members of `ExecutionContext`
  state : ExecutionState
  padlock : Bool
  threads : List ℕ
  taskQueue : AtomicTaskStealingQueue Thunk cfg.nTaskQueues
  servers : List ServerContainer
  notifications : List ℕ
  nextCqWriteIndex : ℕ
  withinCqPost : ℕ
  -- the world around it
  cq : QueueId → CompletionQueue
  handler : ℕ → Handler
  nextHandler : ℕ
  /-- The handlers whose detached work goes on elsewhere. -/
  suspended : List ℕ
  -- control
  frame : Tid τ → Option Frame
  worker : ℕ → WorkerPc
  /-- The number of worker threads created so far. -/
  created : ℕ
  /-- `std::terminate` was called. -/
  terminated : Bool
  -- history
  nextId : ℕ
  /-- How often each worker has been joined. -/
  joins : ℕ → ℕ
  /-- What the `post(ThunkType)` of each thunk has read from `is_done_`. -/
  tested : Thunk → Option Bool
  /-- What the `post(ThunkType)` of each thunk has returned. -/
  returned : Thunk → Option Bool
  /-- What the `post` that makes each event has returned. -/
  posted : Event → Option Bool
  /-- The events whose factory was invoked. -/
  invoked : List Event
  /-- The events that `post` has made, in this order. -/
  made : List Event
  /-- The `post` calls that an exception has left. -/
  threw : List ℕ
  /-- The thunks executed, in this order. -/
  executed : List Thunk
  /-- The signals sent, each by the `Scheduler::Op_` whose `post` call has the number. -/
  signals : List (ℕ × Signal)
  /-- The events whose `complete` is over. -/
  completed : List Event
  /-- The event objects made by `post` that have not been deleted. -/
  heap : List Event
  /-- The notifications that have been added to `notifications_`, in this order. -/
  registered : List ℕ
  /-- The notifications executed, in this order. -/
  notified : List ℕ

namespace State

variable {cfg : Config} {τ : Type*}

/-- A freshly constructed context. -/
def initial : State cfg τ where
  state := .Ready
  padlock := false
  threads := []
  taskQueue := .empty
  servers := []
  notifications := []
  nextCqWriteIndex := 0
  withinCqPost := 0
  cq _ := .empty
  handler _ := ⟨.server 0 0, true, false⟩
  nextHandler := 0
  suspended := []
  frame _ := none
  worker _ := .top
  created := 0
  terminated := false
  nextId := 0
  joins _ := 0
  tested _ := none
  returned _ := none
  posted _ := none
  invoked := []
  made := []
  threw := []
  executed := []
  signals := []
  completed := []
  heap := []
  registered := []
  notified := []

/-- The size of the `k`-th set of queues a pass goes through: `cqs_`, then those of each server. -/
def setSize (s : State cfg τ) : ℕ → ℕ
  | 0 => cfg.nCqs
  | k + 1 => (s.servers.getD k ⟨0, 0⟩).nQueues

/-- Queue `j` of the `k`-th set. -/
def queueAt (s : State cfg τ) : ℕ → ℕ → QueueId
  | 0, j => .own j
  | k + 1, j => .server (s.servers.getD k ⟨0, 0⟩).id j

/-- All queues in the order in which `stop` shuts them down. -/
def allQueues (s : State cfg τ) : List QueueId :=
  (List.range (s.servers.length + 1)).flatMap fun k =>
    (List.range (s.setSize k)).map (s.queueAt k)

end State

end Sgrpc
