import Sgrpc.Server.Handler

/-!
# Handlers whose logic returns a sender

`complete` of a `ServerRpcHandler` may be given logic that returns a sender. It then hands the work
`schedule | logic | then | upon_error` to the context and returns; the work calls `Finish` when it
completes, with the response or, for an error of any kind, with the status `UNKNOWN` and the text
`TBA`. Nothing in the chain is for a work that is stopped, and nothing tells the handler that `post`
has refused the work: such a handler is never answered and never deleted.

A run starts with one handler. gRPC delivers the pending events in any order, and the works that the
context has accepted complete in any order, each with any outcome that its sender may have
(`handler_works`). The adaptors belong to a library; all that is assumed of them is what it says of
them (`SenderAdaptors.Lawful`). Allocations do not fail here: neither that of the successor or of
the operation state of the work, nor that of the `push`.
-/

namespace Sgrpc

open Effects Interleaving

/-! ### Senders -/

/-- How a sender completes. -/
inductive Outcome (Response : Type) where
  | set_value (response : Response)
  | set_error (e : Exception)
  | set_stopped
  deriving DecidableEq

/-- The sender that the logic returns, by the outcomes that it may have once the context executes
it. -/
abbrev LogicSender (Response : Type) := Outcome Response → Bool

section Adaptors

variable {α β : Type}

/-- The adaptors and the consumer of senders that `complete` uses: with the function that is passed
to it, how each completes when the sender before it has completed so. -/
structure SenderAdaptors (β : Type) where
  then_ : {α : Type} → (α → Run Exception β Unit) → Outcome α → Run Exception β (Outcome Unit)
  upon_error : (Exception → Run Exception β Unit) → Outcome Unit →
    Run Exception β (Outcome Unit)
  start_detached : Outcome Unit → Run Exception β Unit

/-- The function is called, and what it throws goes on as an error. -/
def callOn (f : α → Run Exception β Unit) (a : α) : Run Exception β (Outcome Unit) :=
  tryCatch (do f a; return .set_value ()) fun e => return .set_error e

/-- A function that has one effect and returns. -/
theorem callOn_emit (g : α → β) (a : α) :
    callOn (fun a => Run.emit (g a)) a = ⟨.ok (.set_value ()), [g a]⟩ := rfl

namespace SenderAdaptors

/-- The function of an adaptor is called on its own channel, and the other channels are passed on.
What is detached ends in silence, unless with an error, which terminates the program. -/
structure Lawful (A : SenderAdaptors β) : Prop where
  then_value : ∀ {α : Type} (f : α → Run Exception β Unit) (a : α),
    A.then_ f (.set_value a) = callOn f a
  then_error : ∀ {α : Type} (f : α → Run Exception β Unit) (e : Exception),
    A.then_ f (.set_error e) = pure (.set_error e)
  then_stopped : ∀ {α : Type} (f : α → Run Exception β Unit),
    A.then_ f .set_stopped = pure .set_stopped
  error_value : ∀ f, A.upon_error f (.set_value ()) = pure (.set_value ())
  error_error : ∀ f e, A.upon_error f (.set_error e) = callOn f e
  error_stopped : ∀ f, A.upon_error f .set_stopped = pure .set_stopped
  detached_value : A.start_detached (.set_value ()) = pure ()
  detached_error : ∀ e, A.start_detached (.set_error e) = throw e
  detached_stopped : A.start_detached .set_stopped = pure ()

/-- Adaptors that do this. -/
def documented : SenderAdaptors β where
  then_ f
    | .set_value a => callOn f a
    | .set_error e => return .set_error e
    | .set_stopped => return .set_stopped
  upon_error f
    | .set_value () => return .set_value ()
    | .set_error e => callOn f e
    | .set_stopped => return .set_stopped
  start_detached
    | .set_value () => return ()
    | .set_error e => throw e
    | .set_stopped => return ()

theorem lawful_documented : (documented : SenderAdaptors β).Lawful where
  then_value _ _ := rfl
  then_error _ _ := rfl
  then_stopped _ := rfl
  error_value _ := rfl
  error_error _ _ := rfl
  error_stopped _ := rfl
  detached_value := rfl
  detached_error _ := rfl
  detached_stopped := rfl

end SenderAdaptors

end Adaptors

section Work

variable {Response : Type} [Inhabited Response]

/-- The work from when `schedule | logic` has completed: `then` writes the response, `upon_error`
writes the error. -/
def workCompletes (A : SenderAdaptors (HandlerEffect Response)) (outcome : Outcome Response) :
    Run Exception (HandlerEffect Response) Unit := do
  let written ← A.then_ (fun response => Run.emit (.finish response ⟨.OK, ""⟩)) outcome
  let handled ← A.upon_error (fun _ => Run.emit (.finish default ⟨.UNKNOWN, "TBA"⟩)) written
  A.start_detached handled

/-- The `Finish` that the work ends with. -/
def reply : Outcome Response → Option (Response × Status)
  | .set_value response => some (response, ⟨.OK, ""⟩)
  | .set_error _ => some (default, ⟨.UNKNOWN, "TBA"⟩)
  | .set_stopped => none

/-- The work never terminates the program, and calls `Finish` once unless it is stopped. -/
theorem workCompletes_eq {A : SenderAdaptors (HandlerEffect Response)} (hA : A.Lawful)
    (outcome : Outcome Response) :
    workCompletes A outcome = ⟨.ok (), (reply outcome).toList.map fun r => .finish r.1 r.2⟩ := by
  cases outcome with
  | set_value response =>
    rw [workCompletes, hA.then_value, callOn_emit, Run.bind_of_ok, hA.error_value, Run.bind_of_pure,
      hA.detached_value]
    rfl
  | set_error e =>
    rw [workCompletes, hA.then_error, Run.bind_of_pure, hA.error_error, callOn_emit, Run.bind_of_ok,
      hA.detached_value]
    rfl
  | set_stopped =>
    rw [workCompletes, hA.then_stopped, Run.bind_of_pure, hA.error_stopped, Run.bind_of_pure,
      hA.detached_stopped]
    rfl

end Work

section Complete

variable {ServerContext Request Response : Type}

/-- Logic that returns a sender, or throws before it has one. -/
abbrev SenderLogic (ServerContext Request Response : Type) :=
  ServerContext → Request → Except Exception (LogicSender Response)

/-- What `complete` does to the world when the logic returns a sender. -/
inductive SenderEffect (Response : Type) where
  /-- A `ServerRpcHandler` is constructed. -/
  | construct
  /-- `stdexec::start_detached(work)`. -/
  | start_detached (sender : LogicSender Response)
  /-- `delete this`. -/
  | delete

/-- `ServerRpcHandler::complete`, with logic that returns a sender. -/
def ServerRpcHandler.completeSender (logic : SenderLogic ServerContext Request Response)
    (self : ServerRpcHandler ServerContext Request) (isOkay : Bool) :
    Run Exception (SenderEffect Response) (ServerRpcHandler ServerContext Request) := do
  if self.delete_on_next_complete || !isOkay then
    Run.emit .delete
    return self
  else
    Run.emit .construct
    let self := { self with delete_on_next_complete := true }
    let sender ← Run.ofExcept (logic self.server_context self.request)
    Run.emit (.start_detached sender)
    return self

variable (logic : SenderLogic ServerContext Request Response)
  (self : ServerRpcHandler ServerContext Request)

theorem ServerRpcHandler.completeSender_delete (isOkay : Bool)
    (h : (self.delete_on_next_complete || !isOkay) = true) :
    self.completeSender logic isOkay = ⟨.ok self, [.delete]⟩ := by
  rw [completeSender, if_pos h]
  rfl

theorem ServerRpcHandler.completeSender_start (h : self.delete_on_next_complete = false)
    {sender : LogicSender Response}
    (hlogic : logic self.server_context self.request = .ok sender) :
    self.completeSender logic true =
      ⟨.ok { self with delete_on_next_complete := true },
        [.construct, .start_detached sender]⟩ := by
  rw [completeSender, h, if_neg (by decide)]
  dsimp only
  rw [hlogic]
  rfl

theorem ServerRpcHandler.completeSender_throw (h : self.delete_on_next_complete = false)
    {e : Exception} (hlogic : logic self.server_context self.request = .error e) :
    self.completeSender logic true = ⟨.error e, [.construct]⟩ := by
  rw [completeSender, h, if_neg (by decide)]
  dsimp only
  rw [hlogic]
  rfl

end Complete

/-! ### The handlers and their works -/

/-- The work of a handler. -/
inductive Work (Response : Type) where
  /-- It has not been started. -/
  | none
  /-- `post` has accepted it. -/
  | started (sender : LogicSender Response)
  /-- `post` has refused it. -/
  | refused
  /-- It has completed. -/
  | over (outcome : Outcome Response)

/-- The handlers, each with its work. -/
structure SenderHandlers (ServerContext Request Response : Type) where
  handlers : Handlers ServerContext Request Response
  work : ℕ → Work Response
  /-- An exception has left a `noexcept` function. -/
  terminated : Bool

namespace Delivery

variable {ServerContext Request Response : Type}

def isOk : Delivery ServerContext Request → Bool
  | .request _ isOk _ _ | .finished _ isOk => isOk

/-- What happens to the handler. -/
def event : Delivery ServerContext Request → HandlerEvent ServerContext Request Response
  | .request _ isOk context r => .request isOk context r
  | .finished _ isOk => .finished isOk

/-- What gRPC has written into the handler. -/
def write : Delivery ServerContext Request → ServerRpcHandler ServerContext Request →
    ServerRpcHandler ServerContext Request
  | .request _ _ context r, self => { self with server_context := context, request := r }
  | .finished _ _, self => self

end Delivery

/-- The steps: an event is delivered, with what the `post` of a work will return; or the work of a
handler completes. -/
inductive HandlerAct (ServerContext Request Response : Type) where
  | deliver (d : Delivery ServerContext Request) (accepted : Bool)
  | complete (i : ℕ) (outcome : Outcome Response)

namespace SenderHandlers

variable {ServerContext Request Response : Type} [Inhabited ServerContext] [Inhabited Request]
  [Inhabited Response]

/-- `wire_rpcs` has constructed the first handler. -/
def initial : SenderHandlers ServerContext Request Response := ⟨.initial, fun _ => .none, false⟩

/-- An effect of the handler's `complete`, `post` returning `accepted`. -/
def affect (i : ℕ) (accepted : Bool) (s : SenderHandlers ServerContext Request Response) :
    SenderEffect Response → SenderHandlers ServerContext Request Response
  | .construct => { s with handlers := s.handlers.construct }
  | .start_detached sender =>
      { s with work := Function.update s.work i (if accepted then .started sender else .refused) }
  | .delete => { s with handlers := s.handlers.affect i .delete }

/-- The context calls `complete` for a pending operation. -/
def deliver (logic : SenderLogic ServerContext Request Response)
    (s : SenderHandlers ServerContext Request Response) (d : Delivery ServerContext Request)
    (accepted : Bool) : Option (SenderHandlers ServerContext Request Response) :=
  let i := d.handler
  if d.op ∈ (s.handlers.slot i).pending then
    let s := { s with handlers := s.handlers.modify i fun c =>
      { c with pending := c.pending.erase d.op, trace := c.trace ++ [d.event] } }
    match (s.handlers.slot i).object with
    | .none => some { s with handlers := s.handlers.modify i fun c =>
        { c with trace := c.trace ++ [.dangling] } }
    | .some self =>
        let run := (d.write self).completeSender logic d.isOk
        let object := match run.result with
          | .ok self => self
          | .error _ => d.write self
        let s := run.log.foldl (affect i accepted)
          { s with handlers := s.handlers.modify i fun c => { c with object := object } }
        match run.result with
        | .ok _ => some s
        | .error _ => some { s with terminated := true }
  else .none

/-- The work of handler `i` completes. -/
def complete (A : SenderAdaptors (HandlerEffect Response))
    (s : SenderHandlers ServerContext Request Response) (i : ℕ) (outcome : Outcome Response) :
    Option (SenderHandlers ServerContext Request Response) :=
  match s.work i with
  | .started sender =>
      if sender outcome then
        let run := workCompletes A outcome
        let s := { s with
          handlers := run.log.foldl (Handlers.affect i) s.handlers
          work := Function.update s.work i (.over outcome) }
        match run.result with
        | .ok _ => some s
        | .error _ => some { s with terminated := true }
      else .none
  | .none | .refused | .over _ => .none

/-- One step. Nothing happens after `std::terminate`. -/
def step (A : SenderAdaptors (HandlerEffect Response))
    (logic : SenderLogic ServerContext Request Response)
    (s : SenderHandlers ServerContext Request Response) :
    HandlerAct ServerContext Request Response →
      Option (SenderHandlers ServerContext Request Response)
  | .deliver d accepted => if s.terminated then .none else s.deliver logic d accepted
  | .complete i outcome => if s.terminated then .none else s.complete A i outcome

end SenderHandlers

/-- The server whose handlers and works are completed in any order. -/
def workSystem {ServerContext Request Response : Type} [Inhabited ServerContext]
    [Inhabited Request] [Inhabited Response] (A : SenderAdaptors (HandlerEffect Response))
    (logic : SenderLogic ServerContext Request Response) :
    System (SenderHandlers ServerContext Request Response)
      (HandlerAct ServerContext Request Response) where
  Init s := s = .initial
  step := SenderHandlers.step A logic

namespace SenderHandlers

variable {ServerContext Request Response : Type} [Inhabited ServerContext] [Inhabited Request]
  {A : SenderAdaptors (HandlerEffect Response)} {logic : SenderLogic ServerContext Request Response}
  {s s' : SenderHandlers ServerContext Request Response}
  {a : HandlerAct ServerContext Request Response} {i : ℕ}
  {self : ServerRpcHandler ServerContext Request} {context : ServerContext} {request : Request}

/-! ### What a step does -/

/-- Handler `i` and its work are changed. -/
def put (s : SenderHandlers ServerContext Request Response) (i : ℕ)
    (c : HandlerSlot ServerContext Request Response) (w : Work Response) :
    SenderHandlers ServerContext Request Response :=
  { s with handlers := s.handlers.modify i fun _ => c, work := Function.update s.work i w }

/-- A `ServerRpcHandler` is constructed. -/
def construct (s : SenderHandlers ServerContext Request Response) :
    SenderHandlers ServerContext Request Response :=
  { s with handlers := s.handlers.construct }

omit [Inhabited ServerContext] [Inhabited Request] in
/-- gRPC hands out an event of the handler, which is still there. -/
theorem object_delivered {d : Delivery ServerContext Request}
    (hobject : (s.handlers.slot d.handler).object = some self) :
    ((s.handlers.modify d.handler fun c => { c with
      pending := c.pending.erase d.op, trace := c.trace ++ [d.event] }).slot d.handler).object =
        some self := by
  simp [Handlers.modify, hobject]

/-- The handler is there, and its `complete` returns. -/
theorem deliver_of_returns {d : Delivery ServerContext Request} {accepted : Bool}
    {self' : ServerRpcHandler ServerContext Request} {effects : List (SenderEffect Response)}
    (hop : d.op ∈ (s.handlers.slot d.handler).pending)
    (hobject : (s.handlers.slot d.handler).object = some self)
    (hrun : (d.write self).completeSender logic d.isOk = ⟨.ok self', effects⟩) :
    s.deliver logic d accepted = some (effects.foldl (affect d.handler accepted)
      { s with handlers := s.handlers.modify d.handler fun c =>
        ⟨some self', c.pending.erase d.op, c.trace ++ [d.event]⟩ }) := by
  simp only [deliver, if_pos hop, object_delivered hobject, hrun, Handlers.modify_modify]

/-- The handler is there, and its `complete` throws. -/
theorem deliver_of_throws {d : Delivery ServerContext Request} {accepted : Bool} {e : Exception}
    {effects : List (SenderEffect Response)}
    (hop : d.op ∈ (s.handlers.slot d.handler).pending)
    (hobject : (s.handlers.slot d.handler).object = some self)
    (hrun : (d.write self).completeSender logic d.isOk = ⟨.error e, effects⟩) :
    s.deliver logic d accepted = some { effects.foldl (affect d.handler accepted)
      { s with handlers := s.handlers.modify d.handler fun c =>
        ⟨some (d.write self), c.pending.erase d.op, c.trace ++ [d.event]⟩ } with
        terminated := true } := by
  simp only [deliver, if_pos hop, object_delivered hobject, hrun, Handlers.modify_modify]

/-- The request of an armed handler fails. -/
theorem deliver_refused (hslot : s.handlers.slot i = ⟨some self, [.request], []⟩)
    (context : ServerContext) (request : Request) (accepted : Bool) :
    s.deliver logic (.request i false context request) accepted =
      some (s.put i ⟨none, [], [.request false context request, .delete]⟩ (s.work i)) := by
  have hrun := ServerRpcHandler.completeSender_delete logic
    { self with server_context := context, request := request } false (Bool.or_true _)
  have hi : (Delivery.request i false context request).handler = i := rfl
  rw [deliver_of_returns (by simp [hi, hslot, Delivery.op]) (by rw [hi, hslot]) hrun]
  simp [affect, Handlers.affect, Handlers.modify, put, hslot, hi, Delivery.op, Delivery.event]

/-- The request of an armed handler arrives, and the logic returns a sender. -/
theorem deliver_started (hslot : s.handlers.slot i = ⟨some self, [.request], []⟩)
    (hself : self.delete_on_next_complete = false)
    {sender : LogicSender Response} (hlogic : logic context request = .ok sender)
    (accepted : Bool) :
    s.deliver logic (.request i true context request) accepted =
      some (s.put i ⟨some ⟨context, request, true⟩, [], [.request true context request]⟩
        (if accepted then .started sender else .refused)).construct := by
  have hrun := ServerRpcHandler.completeSender_start logic
    { self with server_context := context, request := request } hself hlogic
  have hhandler : (Delivery.request i true context request).handler = i := rfl
  rw [deliver_of_returns (by simp [hhandler, hslot, Delivery.op]) (by rw [hhandler, hslot]) hrun]
  simp [affect, Handlers.modify, put, construct, hslot, hhandler, Delivery.op, Delivery.event]

/-- The request of an armed handler arrives, and the logic throws. -/
theorem deliver_threw (hslot : s.handlers.slot i = ⟨some self, [.request], []⟩)
    (hself : self.delete_on_next_complete = false) {e : Exception}
    (hlogic : logic context request = .error e) (accepted : Bool) :
    s.deliver logic (.request i true context request) accepted =
      some { (s.put i ⟨some ⟨context, request, false⟩, [], [.request true context request]⟩
        (s.work i)).construct with terminated := true } := by
  have hrun := ServerRpcHandler.completeSender_throw logic
    { self with server_context := context, request := request } hself hlogic
  have hhandler : (Delivery.request i true context request).handler = i := rfl
  rw [deliver_of_throws (by simp [hhandler, hslot, Delivery.op]) (by rw [hhandler, hslot]) hrun]
  simp [affect, Handlers.modify, put, construct, hslot, hhandler, Delivery.op, Delivery.event,
    Delivery.write, hself]

/-- The event for the answer arrives. -/
theorem deliver_finished {trace : List (HandlerEvent ServerContext Request Response)}
    (hslot : s.handlers.slot i = ⟨some self, [.finish], trace⟩)
    (hself : self.delete_on_next_complete = true) (isOk accepted : Bool) :
    s.deliver logic (.finished i isOk) accepted =
      some (s.put i ⟨none, [], trace ++ [.finished isOk, .delete]⟩ (s.work i)) := by
  have hrun := ServerRpcHandler.completeSender_delete logic self isOk
    (Bool.or_eq_true_iff.mpr (Or.inl hself))
  have hi : (Delivery.finished i isOk : Delivery ServerContext Request).handler = i := rfl
  rw [deliver_of_returns (by simp [hi, hslot, Delivery.op]) (by rw [hi, hslot]) hrun]
  simp [affect, Handlers.affect, Handlers.modify, put, hslot, hi, Delivery.op, Delivery.event]

variable [Inhabited Response]

/-- A started work completes. -/
theorem complete_started (hA : A.Lawful) {sender : LogicSender Response}
    (hwork : s.work i = .started sender) {outcome : Outcome Response}
    (houtcome : sender outcome = true) : s.complete A i outcome = some { s with
      handlers := ((reply outcome).toList.map fun r => .finish r.1 r.2).foldl (Handlers.affect i)
        s.handlers
      work := Function.update s.work i (.over outcome) } := by
  simp only [complete, hwork, if_pos houtcome, workCompletes_eq hA]

/-! ### The lives of a handler -/

/-- A handler and its work. A handler whose request has arrived is answered when its work completes,
with what the work has become, and deleted on the event for that; it is left if the work has been
refused or stopped, or if the logic has thrown. -/
inductive Life (logic : SenderLogic ServerContext Request Response) :
    HandlerSlot ServerContext Request Response → Work Response → Prop
  | armed {self : ServerRpcHandler ServerContext Request} :
      self.delete_on_next_complete = false → Life logic ⟨some self, [.request], []⟩ .none
  | refused {context : ServerContext} {request : Request} :
      Life logic ⟨none, [], [.request false context request, .delete]⟩ .none
  | threw {self : ServerRpcHandler ServerContext Request} {context : ServerContext}
      {request : Request} {e : Exception} : logic context request = .error e →
      Life logic ⟨some self, [], [.request true context request]⟩ .none
  | dropped {self : ServerRpcHandler ServerContext Request} {context : ServerContext}
      {request : Request} {sender : LogicSender Response} : logic context request = .ok sender →
      Life logic ⟨some self, [], [.request true context request]⟩ .refused
  | working {self : ServerRpcHandler ServerContext Request} {context : ServerContext}
      {request : Request} {sender : LogicSender Response} : logic context request = .ok sender →
      self.delete_on_next_complete = true →
      Life logic ⟨some self, [], [.request true context request]⟩ (.started sender)
  | stopped {self : ServerRpcHandler ServerContext Request} {context : ServerContext}
      {request : Request} {sender : LogicSender Response} {outcome : Outcome Response} :
      logic context request = .ok sender → sender outcome = true → reply outcome = none →
      Life logic ⟨some self, [], [.request true context request]⟩ (.over outcome)
  | serving {self : ServerRpcHandler ServerContext Request} {context : ServerContext}
      {request : Request} {sender : LogicSender Response} {outcome : Outcome Response}
      {response : Response} {status : Status} : logic context request = .ok sender →
      sender outcome = true → reply outcome = some (response, status) →
      self.delete_on_next_complete = true →
      Life logic ⟨some self, [.finish], [.request true context request, .finish response status]⟩
        (.over outcome)
  | served {context : ServerContext} {request : Request} {sender : LogicSender Response}
      {outcome : Outcome Response} {response : Response} {status : Status} {isOk : Bool} :
      logic context request = .ok sender → sender outcome = true →
      reply outcome = some (response, status) →
      Life logic ⟨none, [], [.request true context request, .finish response status,
        .finished isOk, .delete]⟩ (.over outcome)

/-- The logic has thrown on the request that has arrived for the handler. -/
def Thrown (logic : SenderLogic ServerContext Request Response)
    (c : HandlerSlot ServerContext Request Response) : Prop :=
  ∃ context request e, .request true context request ∈ c.trace ∧ logic context request = .error e

/-- What is reached: every handler that has been constructed lives one of its lives, and the program
has terminated if the logic has thrown, and only then. -/
structure WorksOk (logic : SenderLogic ServerContext Request Response)
    (s : SenderHandlers ServerContext Request Response) : Prop where
  life : ∀ i < s.handlers.size, Life logic (s.handlers.slot i) (s.work i)
  fresh : ∀ i, s.handlers.size ≤ i → s.handlers.slot i = ⟨none, [], []⟩ ∧ s.work i = .none
  terminated : s.terminated = true ↔ ∃ i, Thrown logic (s.handlers.slot i)

/-- The steps that are possible, and what they do. -/
inductive Acted (logic : SenderLogic ServerContext Request Response)
    (s : SenderHandlers ServerContext Request Response) :
    HandlerAct ServerContext Request Response →
      SenderHandlers ServerContext Request Response → Prop
  | refused {i : ℕ} {self : ServerRpcHandler ServerContext Request} {context : ServerContext}
      {request : Request} {accepted : Bool} : i < s.handlers.size →
      s.handlers.slot i = ⟨some self, [.request], []⟩ → s.work i = .none →
      Acted logic s (.deliver (.request i false context request) accepted)
        (s.put i ⟨none, [], [.request false context request, .delete]⟩ (s.work i))
  | started {i : ℕ} {self : ServerRpcHandler ServerContext Request} {context : ServerContext}
      {request : Request} {accepted : Bool} {sender : LogicSender Response} :
      i < s.handlers.size → s.handlers.slot i = ⟨some self, [.request], []⟩ →
      logic context request = .ok sender →
      Acted logic s (.deliver (.request i true context request) accepted)
        (s.put i ⟨some ⟨context, request, true⟩, [], [.request true context request]⟩
          (if accepted then .started sender else .refused)).construct
  | threw {i : ℕ} {self : ServerRpcHandler ServerContext Request} {context : ServerContext}
      {request : Request} {accepted : Bool} {e : Exception} :
      i < s.handlers.size → s.handlers.slot i = ⟨some self, [.request], []⟩ →
      s.work i = .none → logic context request = .error e →
      Acted logic s (.deliver (.request i true context request) accepted)
        { (s.put i ⟨some ⟨context, request, false⟩, [], [.request true context request]⟩
          (s.work i)).construct with terminated := true }
  | finished {i : ℕ} {self : ServerRpcHandler ServerContext Request}
      {trace : List (HandlerEvent ServerContext Request Response)} {isOk accepted : Bool} :
      i < s.handlers.size → s.handlers.slot i = ⟨some self, [.finish], trace⟩ →
      Acted logic s (.deliver (.finished i isOk) accepted)
        (s.put i ⟨none, [], trace ++ [.finished isOk, .delete]⟩ (s.work i))
  | stopped {i : ℕ} {self : ServerRpcHandler ServerContext Request} {context : ServerContext}
      {request : Request} {sender : LogicSender Response} {outcome : Outcome Response} :
      i < s.handlers.size →
      s.handlers.slot i = ⟨some self, [], [.request true context request]⟩ →
      s.work i = .started sender → logic context request = .ok sender → sender outcome = true →
      reply outcome = none →
      Acted logic s (.complete i outcome)
        (s.put i ⟨some self, [], [.request true context request]⟩ (.over outcome))
  | replied {i : ℕ} {self : ServerRpcHandler ServerContext Request} {context : ServerContext}
      {request : Request} {sender : LogicSender Response} {outcome : Outcome Response}
      {response : Response} {status : Status} : i < s.handlers.size →
      s.handlers.slot i = ⟨some self, [], [.request true context request]⟩ →
      s.work i = .started sender → logic context request = .ok sender → sender outcome = true →
      self.delete_on_next_complete = true → reply outcome = some (response, status) →
      Acted logic s (.complete i outcome)
        (s.put i ⟨some self, [.finish],
          [.request true context request, .finish response status]⟩ (.over outcome))

omit [Inhabited Response] in
/-- An event arrives for a pending operation. -/
theorem pending_of_deliver {d : Delivery ServerContext Request} {accepted : Bool}
    (h : s.deliver logic d accepted = some s') : d.op ∈ (s.handlers.slot d.handler).pending := by
  by_contra hop
  rw [deliver, if_neg hop] at h
  cases h

omit [Inhabited ServerContext] [Inhabited Request] in
theorem WorksOk.lt_size (hok : WorksOk logic s) {i : ℕ} {op : PendingOp}
    (hop : op ∈ (s.handlers.slot i).pending) : i < s.handlers.size := by
  by_contra hi
  rw [(hok.fresh i (Nat.le_of_not_lt hi)).1] at hop
  cases hop

/-- What a delivery does, and that it is possible for every pending operation. -/
theorem WorksOk.delivered (hok : WorksOk logic s) {d : Delivery ServerContext Request}
    (hop : d.op ∈ (s.handlers.slot d.handler).pending) (accepted : Bool) :
    ∃ s', s.deliver logic d accepted = some s' ∧ Acted logic s (.deliver d accepted) s' := by
  have hi := hok.lt_size hop
  have hlife := hok.life d.handler hi
  generalize hslot : s.handlers.slot d.handler = c at hop hlife
  generalize hwork : s.work d.handler = work at hlife
  cases d with
  | request i isOk context request =>
    cases hlife with
    | armed hself =>
      cases isOk with
      | false => exact ⟨_, deliver_refused hslot context request accepted, .refused hi hslot hwork⟩
      | true =>
        cases hlogic : logic context request with
        | ok sender =>
          exact ⟨_, deliver_started hslot hself hlogic accepted, .started hi hslot hlogic⟩
        | error e =>
          exact ⟨_, deliver_threw hslot hself hlogic accepted, .threw hi hslot hwork hlogic⟩
    | refused | threw | dropped | working | stopped | serving | served =>
      simp [Delivery.op] at hop
  | finished i isOk =>
    cases hlife with
    | serving hlogic houtcome hreply hself =>
      exact ⟨_, deliver_finished hslot hself isOk accepted, .finished hi hslot⟩
    | armed | refused | threw | dropped | working | stopped | served => simp [Delivery.op] at hop

/-- What the completion of a work does. -/
theorem WorksOk.completed (hok : WorksOk logic s) (hA : A.Lawful) {i : ℕ}
    {sender : LogicSender Response} {outcome : Outcome Response}
    (hwork : s.work i = .started sender) (houtcome : sender outcome = true) :
    ∃ s', s.complete A i outcome = some s' ∧ Acted logic s (.complete i outcome) s' := by
  have hi : i < s.handlers.size := by
    by_contra hi
    rw [(hok.fresh i (Nat.le_of_not_lt hi)).2] at hwork
    cases hwork
  refine ⟨_, complete_started hA hwork houtcome, ?_⟩
  have hlife := hok.life i hi
  rw [hwork] at hlife
  generalize hslot : s.handlers.slot i = c at hlife
  cases hlife with
  | working hlogic hself =>
    cases hreply : reply outcome with
    | none =>
      have hacted := Acted.stopped hi hslot hwork hlogic houtcome hreply
      simpa [put, Handlers.modify, ← hslot] using hacted
    | some r =>
      have hacted := Acted.replied hi hslot hwork hlogic houtcome hself hreply
      simpa [put, Handlers.affect, Handlers.modify, hslot] using hacted

theorem WorksOk.acted (hok : WorksOk logic s) (hA : A.Lawful)
    (hs : s.step A logic a = some s') :
    s.terminated = false ∧ Acted logic s a s' := by
  cases a with
  | deliver d accepted =>
    by_cases hterm : s.terminated
    · simp [step, hterm] at hs
    · rw [step, if_neg hterm] at hs
      obtain ⟨t, ht, hacted⟩ := hok.delivered (pending_of_deliver hs) accepted
      rw [hs] at ht
      cases ht
      exact ⟨by simpa using hterm, hacted⟩
  | complete i outcome =>
    by_cases hterm : s.terminated
    · simp [step, hterm] at hs
    · rw [step, if_neg hterm] at hs
      have hstarted : ∃ sender, s.work i = .started sender ∧ sender outcome = true := by
        unfold complete at hs
        split at hs
        · next sender hwork =>
          split at hs
          · next houtcome => exact ⟨sender, hwork, houtcome⟩
          · cases hs
        all_goals cases hs
      obtain ⟨sender, hwork, houtcome⟩ := hstarted
      obtain ⟨t, ht, hacted⟩ := hok.completed hA hwork houtcome
      rw [hs] at ht
      cases ht
      exact ⟨by simpa using hterm, hacted⟩

omit [Inhabited ServerContext] [Inhabited Request] in
/-- A handler is changed, which goes on to another stage of its life. -/
theorem WorksOk.put (hok : WorksOk logic s) {i : ℕ} (hi : i < s.handlers.size)
    {c : HandlerSlot ServerContext Request Response} {w : Work Response} (hlife : Life logic c w)
    (hterm : s.terminated = false) {b : Bool} (hthrown : b = true ↔ Thrown logic c) :
    WorksOk logic { s.put i c w with terminated := b } where
  life j hj := by
    rcases eq_or_ne j i with rfl | hne
    · simpa [SenderHandlers.put, Handlers.modify] using hlife
    · simpa [SenderHandlers.put, Handlers.modify, hne] using hok.life j hj
  fresh j hj := by
    have hne : j ≠ i := (Nat.lt_of_lt_of_le hi hj).ne'
    simpa [SenderHandlers.put, Handlers.modify, hne] using hok.fresh j hj
  terminated := by
    refine hthrown.trans ⟨fun h => ⟨i, ?_⟩, ?_⟩
    · simpa [SenderHandlers.put, Handlers.modify] using h
    · rintro ⟨j, hj⟩
      rcases eq_or_ne j i with rfl | hne
      · simpa [SenderHandlers.put, Handlers.modify] using hj
      · have hold : Thrown logic (s.handlers.slot j) := by
          simpa [SenderHandlers.put, Handlers.modify, hne] using hj
        rw [hok.terminated.mpr ⟨j, hold⟩] at hterm
        cases hterm

theorem WorksOk.construct (hok : WorksOk logic s) : WorksOk logic s.construct where
  life j hj := by
    rcases Nat.lt_succ_iff_lt_or_eq.mp hj with hlt | rfl
    · simpa [SenderHandlers.construct, Handlers.construct, hlt.ne] using hok.life j hlt
    · have harmed : Life logic Handlers.armedSlot .none := .armed rfl
      simpa [SenderHandlers.construct, Handlers.construct, (hok.fresh _ le_rfl).2] using harmed
  fresh j hj := by
    have hne : j ≠ s.handlers.size := (Nat.lt_of_succ_le hj).ne'
    simpa [SenderHandlers.construct, Handlers.construct, hne] using
      hok.fresh j (Nat.le_of_succ_le hj)
  terminated := by
    refine hok.terminated.trans (exists_congr fun j => ?_)
    rcases eq_or_ne j s.handlers.size with rfl | hne
    · simp [SenderHandlers.construct, Handlers.construct, Handlers.armedSlot, Thrown,
        (hok.fresh _ le_rfl).1]
    · simp [SenderHandlers.construct, Handlers.construct, hne]

omit [Inhabited ServerContext] [Inhabited Request] [Inhabited Response] in
/-- A handler whose request has been given to the logic, which has returned a sender. -/
theorem not_thrown {c : HandlerSlot ServerContext Request Response} {sender : LogicSender Response}
    (hlogic : logic context request = .ok sender)
    (htrace : ∀ x r, .request true x r ∈ c.trace → x = context ∧ r = request) :
    ¬ Thrown logic c := by
  rintro ⟨x, r, e, hmem, herror⟩
  obtain ⟨rfl, rfl⟩ := htrace x r hmem
  rw [hlogic] at herror
  cases herror

theorem WorksOk.step (hok : WorksOk logic s) (hA : A.Lawful) (hs : s.step A logic a = some s') :
    WorksOk logic s' := by
  obtain ⟨hterm, hacted⟩ := hok.acted hA hs
  have hrunning : s.terminated ≠ true := by simpa using hterm
  cases hacted with
  | refused hi hslot hwork =>
    exact hok.put hi (hwork ▸ .refused) hterm (iff_of_false hrunning (by simp [Thrown]))
  | @started i self context request accepted sender hi hslot hlogic =>
    have hnot := iff_of_false hrunning (not_thrown (c := ⟨some ⟨context, request, true⟩, [],
      [.request true context request]⟩) hlogic (by simp))
    cases accepted with
    | true => exact (hok.put hi (.working hlogic rfl) hterm hnot).construct
    | false => exact (hok.put hi (.dropped hlogic) hterm hnot).construct
  | @threw i self context request accepted e hi hslot hwork hlogic =>
    have hthrown : Thrown logic ⟨some ⟨context, request, false⟩, [],
        [.request true context request]⟩ := ⟨context, request, e, List.mem_cons_self, hlogic⟩
    exact (hok.put hi (hwork ▸ .threw hlogic) hterm (iff_of_true rfl hthrown)).construct
  | @finished i self trace isOk accepted hi hslot =>
    have hlife := hok.life i hi
    rw [hslot] at hlife
    generalize hwork : s.work i = w at hlife
    cases hlife with
    | serving hlogic houtcome hreply hself =>
      exact hok.put hi (hwork ▸ .served hlogic houtcome hreply) hterm
        (iff_of_false hrunning (not_thrown hlogic (by simp)))
  | stopped hi hslot hwork hlogic houtcome hreply =>
    exact hok.put hi (.stopped hlogic houtcome hreply) hterm
      (iff_of_false hrunning (not_thrown hlogic (by simp)))
  | replied hi hslot hwork hlogic houtcome hself hreply =>
    exact hok.put hi (.serving hlogic houtcome hreply hself) hterm
      (iff_of_false hrunning (not_thrown hlogic (by simp)))

theorem worksOk (hA : A.Lawful) (h : (workSystem A logic).Reachable s) : WorksOk logic s := by
  refine h.invariant ?_ fun s a s' _ hok _ hs => hok.step hA hs
  rintro _ rfl
  have hempty : WorksOk logic (⟨⟨0, fun _ => ⟨none, [], []⟩⟩, fun _ => .none, false⟩ :
      SenderHandlers ServerContext Request Response) :=
    ⟨fun _ hi => absurd hi (Nat.not_lt_zero _), fun _ _ => ⟨rfl, rfl⟩, by simp [Thrown]⟩
  exact hempty.construct

/-! ### The handler that waits for a request -/

omit [Inhabited Response] in
/-- A request arrives at the handler that waits, which constructs its successor. -/
theorem listeningOk_arrived {s : Handlers ServerContext Request Response} (hok : s.ListeningOk)
    {i : ℕ} (harmed : s.Armed i) {c : HandlerSlot ServerContext Request Response}
    (hc : .request ∉ c.pending) (htrace : ∀ x r, .request false x r ∉ c.trace) :
    (s.modify i fun _ => c).construct.ListeningOk := by
  refine Handlers.listeningOk_construct (hok.disarm harmed hc) fun j hj => ?_
  rcases eq_or_ne j i with rfl | hne
  · obtain ⟨x, r, hmem⟩ := hj
    simp only [Handlers.modify, Function.update_self] at hmem
    exact htrace x r hmem
  · rw [Handlers.refused_modify_of_ne hne] at hj
    exact hok.closed j i hj harmed

theorem listeningOk_step (hA : A.Lawful) (hlives : WorksOk logic s) (hok : s.handlers.ListeningOk)
    (hs : s.step A logic a = some s') : s'.handlers.ListeningOk := by
  cases (hlives.acted hA hs).2 with
  | @refused i self context request accepted hi hslot hwork =>
    have harmed : s.handlers.Armed i := by simp [Handlers.Armed, hslot]
    refine ⟨fun hnot => ?_, fun _ j _ => hok.disarm harmed List.not_mem_nil j⟩
    exact absurd ⟨context, request, by simp [SenderHandlers.put, Handlers.modify]⟩ (hnot i)
  | started hi hslot hlogic =>
    exact listeningOk_arrived hok (by simp [Handlers.Armed, hslot]) (by simp) (by simp)
  | threw hi hslot hwork hlogic =>
    exact listeningOk_arrived hok (by simp [Handlers.Armed, hslot]) (by simp) (by simp)
  | finished hi hslot =>
    refine hok.of_not_armed ?_ List.not_mem_nil ?_
    · simp [Handlers.Armed, hslot]
    · simp [Handlers.Refused, Handlers.modify, hslot]
  | stopped hi hslot =>
    refine hok.of_not_armed ?_ List.not_mem_nil ?_
    · simp [Handlers.Armed, hslot]
    · simp [Handlers.Refused, Handlers.modify, hslot]
  | replied hi hslot =>
    refine hok.of_not_armed ?_ (by simp) ?_
    · simp [Handlers.Armed, hslot]
    · simp [Handlers.Refused, Handlers.modify, hslot]

/-- **The life cycle of the handlers whose logic returns a sender.** One live handler waits for a
request until the request of a handler fails, and none does from then on. Every handler lives one of
its lives: `Finish` is called at most once for it, by its work, with what the work has become. The
program terminates if the logic itself throws, and only then (a failing allocation of the successor,
of the operation state or of the `push` would terminate it too, but no allocation fails here); as
long as it has not, no pending event and no accepted work is left stuck. -/
theorem handler_works (hA : A.Lawful) (h : (workSystem A logic).Reachable s) :
    ((∀ i, ¬ s.handlers.Refused i) → ∃! i, s.handlers.Armed i) ∧
      (∀ i j, s.handlers.Refused i → ¬ s.handlers.Armed j) ∧
      (∀ i < s.handlers.size, Life logic (s.handlers.slot i) (s.work i)) ∧
      (s.terminated = true ↔ ∃ i, Thrown logic (s.handlers.slot i)) ∧
      (s.terminated = false →
        (∀ d accepted, d.op ∈ (s.handlers.slot d.handler).pending →
          ((workSystem A logic).step s (.deliver d accepted)).isSome) ∧
        ∀ i sender outcome, s.work i = .started sender → sender outcome = true →
          ((workSystem A logic).step s (.complete i outcome)).isSome) := by
  have hlistening : s.handlers.ListeningOk := by
    refine h.invariant (I := fun s => s.handlers.ListeningOk) ?_
      fun s a s' hr hok _ hs => listeningOk_step hA (worksOk hA hr) hok hs
    rintro _ rfl
    exact Handlers.listeningOk_construct (fun j hj => by simp [Handlers.Armed] at hj) fun j hj => by
      simp [Handlers.Refused] at hj
  have hok := worksOk hA h
  refine ⟨hlistening.listens, hlistening.closed, hok.life, hok.terminated, fun hterm => ?_⟩
  constructor
  · intro d accepted hop
    obtain ⟨s', hs, -⟩ := hok.delivered hop accepted
    have hstep : s.step A logic (.deliver d accepted) = some s' := by
      rw [step, if_neg (by simp [hterm]), hs]
    exact Option.isSome_of_eq_some hstep
  · intro i sender outcome hwork houtcome
    obtain ⟨s', hs, -⟩ := hok.completed hA hwork houtcome
    have hstep : s.step A logic (.complete i outcome) = some s' := by
      rw [step, if_neg (by simp [hterm]), hs]
    exact Option.isSome_of_eq_some hstep

/-- Logic whose sender may complete in any way. -/
def anyOutcome : SenderLogic Unit ℕ ℕ := fun _ _ => .ok fun _ => true

/-- Four requests: a response, an error, a work that is stopped and one that is refused. Then the
next request fails. -/
def fourRequests : List (HandlerAct Unit ℕ ℕ) :=
  [.deliver (.request 0 true () 5) true, .deliver (.request 1 true () 6) true,
    .complete 1 (.set_error .other), .deliver (.request 2 true () 7) true,
    .deliver (.request 3 true () 8) false, .complete 0 (.set_value 9), .complete 2 .set_stopped,
    .deliver (.finished 0 true) true, .deliver (.request 4 false () 0) true,
    .deliver (.finished 1 false) true]

theorem handler_works_fourRequests : ∃ s : SenderHandlers Unit ℕ ℕ,
    s.handlers.Refused 4 ∧ (∀ j, ¬ s.handlers.Armed j) ∧ s.terminated = false ∧
      ((s.handlers.slot 0).trace.length = 4 ∧
        Life anyOutcome (s.handlers.slot 0) (s.work 0)) ∧
      (s.handlers.slot 1).trace.length = 4 ∧
        Life anyOutcome (s.handlers.slot 1) (s.work 1) := by
  let s := ((workSystem .documented anyOutcome).exec .initial fourRequests).get (by decide)
  have hs : (workSystem .documented anyOutcome).Reachable s :=
    System.reachable_of_exec rfl (Option.some_get _).symm
  have hrefused : s.handlers.Refused 4 := ⟨(), 0, List.mem_cons_self⟩
  obtain ⟨-, hclosed, hlife, -⟩ := handler_works SenderAdaptors.lawful_documented hs
  exact ⟨s, hrefused, fun j => hclosed 4 j hrefused, by decide, ⟨by decide, hlife 0 (by decide)⟩,
    by decide, hlife 1 (by decide)⟩

/-! ### The handlers that are left -/

/-- Nothing more is to come for the handler: no event is pending, and no work is in the context. -/
def Settled (s : SenderHandlers ServerContext Request Response) (i : ℕ) : Prop :=
  (s.handlers.slot i).pending = [] ∧ ∀ sender, s.work i ≠ .started sender

/-- A step leaves a settled handler as it is. -/
theorem settled_step (hA : A.Lawful) (hok : WorksOk logic s) {i : ℕ} (hi : i < s.handlers.size)
    (hsettled : s.Settled i) (hs : s.step A logic a = some s') : i < s'.handlers.size ∧
      s'.handlers.slot i = s.handlers.slot i ∧ s'.work i = s.work i := by
  obtain ⟨hpending, hwork⟩ := hsettled
  -- another handler is changed
  have hput : ∀ {j c w}, j ≠ i → i < (s.put j c w).handlers.size ∧
      (s.put j c w).handlers.slot i = s.handlers.slot i ∧ (s.put j c w).work i = s.work i := by
    intro j c w hne
    simpa [SenderHandlers.put, Handlers.modify, hne.symm] using hi
  have hconstruct : ∀ {j c w}, j ≠ i → i < (s.put j c w).construct.handlers.size ∧
      (s.put j c w).construct.handlers.slot i = s.handlers.slot i ∧
        (s.put j c w).construct.work i = s.work i := by
    intro j c w hne
    obtain ⟨hsize, hslot, hwork⟩ := hput (c := c) (w := w) hne
    refine ⟨Nat.lt_succ_of_lt hsize, ?_, hwork⟩
    rw [← hslot]
    exact Function.update_of_ne hsize.ne _ _
  have hother : ∀ {j c}, s.handlers.slot j = c → c.pending ≠ [] → j ≠ i := by
    rintro j c rfl hne rfl
    exact hne hpending
  cases (hok.acted hA hs).2 with
  | refused hj hslot => exact hput (hother hslot (by simp))
  | started hj hslot => exact hconstruct (hother hslot (by simp))
  | threw hj hslot => exact hconstruct (hother hslot (by simp))
  | finished hj hslot => exact hput (hother hslot (by simp))
  | stopped hj hslot hstarted => exact hput fun heq => hwork _ (heq ▸ hstarted)
  | replied hj hslot hstarted => exact hput fun heq => hwork _ (heq ▸ hstarted)

/-- **Which handlers are leaked.** A handler for which nothing more is to come is still there
exactly if `post` has refused its work or its work has been stopped. It stays so in every later
state: it is never answered and never deleted. -/
theorem leaked_iff (hA : A.Lawful) (h : (workSystem A logic).Reachable s)
    (hterm : s.terminated = false) {i : ℕ} (hi : i < s.handlers.size) (hsettled : s.Settled i) :
    ((s.handlers.slot i).object.isSome ↔
      s.work i = .refused ∨ s.work i = .over .set_stopped) ∧
      ∀ t, (workSystem A logic).Leads (fun _ _ => True) s t →
        t.handlers.slot i = s.handlers.slot i ∧ t.work i = s.work i := by
  have hok := worksOk hA h
  constructor
  · have hlife := hok.life i hi
    have hnot : ¬ Thrown logic (s.handlers.slot i) := by
      intro hthrown
      rw [hok.terminated.mpr ⟨i, hthrown⟩] at hterm
      cases hterm
    obtain ⟨hpending, hwork⟩ := hsettled
    generalize s.handlers.slot i = c at hlife hnot hpending
    generalize s.work i = w at hlife hwork
    cases hlife with
    | armed | serving => simp at hpending
    | refused => simp
    | threw hlogic => exact absurd ⟨_, _, _, List.mem_cons_self, hlogic⟩ hnot
    | dropped => simp
    | working => exact absurd rfl (hwork _)
    | @stopped self context request sender outcome hlogic houtcome hreply =>
      cases outcome with
      | set_stopped => simp
      | set_value | set_error => cases hreply
    | @served context request sender outcome response status isOk hlogic houtcome hreply =>
      cases outcome with
      | set_stopped => cases hreply
      | set_value | set_error => simp
  · intro t hl
    have hinv : WorksOk logic t ∧ i < t.handlers.size ∧
        t.handlers.slot i = s.handlers.slot i ∧ t.work i = s.work i := by
      refine hl.invariant (I := fun t => WorksOk logic t ∧ i < t.handlers.size ∧
        t.handlers.slot i = s.handlers.slot i ∧ t.work i = s.work i) ⟨hok, hi, rfl, rfl⟩ ?_
      rintro t a t' ⟨hokt, hit, hslot, hwork⟩ - hs
      have hsettledt : t.Settled i := by
        rw [Settled, hslot, hwork]
        exact hsettled
      obtain ⟨hi', hslot', hwork'⟩ := settled_step hA hokt hit hsettledt hs
      exact ⟨hokt.step hA hs, hi', hslot'.trans hslot, hwork'.trans hwork⟩
    exact hinv.2.2

theorem leaked_iff_fourRequests : ∃ s : SenderHandlers Unit ℕ ℕ,
    (s.handlers.slot 2).object.isSome ∧ (s.handlers.slot 3).object.isSome ∧
      ∀ t, (workSystem .documented anyOutcome).Leads (fun _ _ => True) s t →
        t.handlers.slot 3 = s.handlers.slot 3 ∧ t.work 3 = s.work 3 := by
  let s := ((workSystem .documented anyOutcome).exec .initial fourRequests).get (by decide)
  have hs : (workSystem .documented anyOutcome).Reachable s :=
    System.reachable_of_exec rfl (Option.some_get _).symm
  have hsettled : ∀ i, i = 2 ∨ i = 3 → s.Settled i := by
    rintro i (rfl | rfl) <;> exact ⟨by decide, fun sender h => by cases h⟩
  have hA := SenderAdaptors.lawful_documented (β := HandlerEffect ℕ)
  have hstopped := leaked_iff hA hs (by decide) (by decide) (hsettled 2 (Or.inl rfl))
  have hdropped := leaked_iff hA hs (by decide) (by decide) (hsettled 3 (Or.inr rfl))
  exact ⟨s, hstopped.1.mpr (Or.inr rfl), hdropped.1.mpr (Or.inl rfl), hdropped.2⟩

end SenderHandlers

end Sgrpc
