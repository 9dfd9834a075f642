import Mathlib.Logic.ExistsUnique
import Mathlib.Logic.Function.Basic
import Mathlib.Order.Nat
import Sgrpc.Interleaving.System
import Sgrpc.Rpc.OperationState

/-!
# The handlers of the server

A `ServerRpcHandler` asks gRPC for one request when it is constructed; when the request arrives, it
constructs its successor and answers. It is owned by the events that gRPC delivers to it, and
deletes itself on the last of them. The logic is of the immediate kind: it returns a response or
throws.

A run starts with one handler, and gRPC delivers the pending events in any order, each with any
`is_ok`. One handler waits for a request until a request has failed, and every handler lives one of
two lives (`handler_lives`).
-/

namespace Sgrpc

open Effects Interleaving

/-- What gRPC has been asked for with the handler as the tag, and owes an event for. -/
inductive PendingOp where
  /-- `bind_request_`. -/
  | request
  /-- `response_writer_.Finish`. -/
  | finish
  deriving DecidableEq

/-- The members of a `ServerRpcHandler` that change. -/
structure ServerRpcHandler (ServerContext Request : Type) where
  server_context : ServerContext
  request : Request
  delete_on_next_complete : Bool

/-- What `complete` does to the world. -/
inductive HandlerEffect (Response : Type) where
  /-- A `ServerRpcHandler` is constructed. -/
  | construct
  /-- `response_writer_.Finish`. -/
  | finish (response : Response) (status : Status)
  /-- `delete this`. -/
  | delete

section Complete

variable {ServerContext Request Response : Type} [Inhabited Response]

/-- `RpcLogicThunk`: it returns a response or throws, which is decided by the request and the server
context, the state of the server with it. -/
abbrev RpcLogicThunk (ServerContext Request Response : Type) :=
  ServerContext → Request → Except Exception Response

/-- `ServerRpcHandler::complete`, with logic that is executed immediately. -/
def ServerRpcHandler.complete (logic : RpcLogicThunk ServerContext Request Response)
    (self : ServerRpcHandler ServerContext Request) (isOkay : Bool) :
    Run Exception (HandlerEffect Response) (ServerRpcHandler ServerContext Request) := do
  if self.delete_on_next_complete || !isOkay then
    Run.emit .delete
    return self
  else
    Run.emit .construct
    let self := { self with delete_on_next_complete := true }
    try
      let response ← Run.ofExcept (logic self.server_context self.request)
      Run.emit (.finish response ⟨.OK, ""⟩)
    catch _ =>
      Run.emit (.finish default ⟨.INTERNAL, ""⟩)
    return self

/-- How a request is to be answered. -/
def answer (logic : RpcLogicThunk ServerContext Request Response) (context : ServerContext)
    (request : Request) : Response × Status :=
  match logic context request with
  | .ok response => (response, ⟨.OK, ""⟩)
  | .error _ => (default, ⟨.INTERNAL, ""⟩)

variable (logic : RpcLogicThunk ServerContext Request Response)
  (self : ServerRpcHandler ServerContext Request)

theorem ServerRpcHandler.complete_delete (isOkay : Bool)
    (h : (self.delete_on_next_complete || !isOkay) = true) :
    self.complete logic isOkay = ⟨.ok self, [.delete]⟩ := by
  rw [complete, if_pos h]
  rfl

theorem ServerRpcHandler.complete_answer (h : self.delete_on_next_complete = false) :
    self.complete logic true = ⟨.ok { self with delete_on_next_complete := true }, [.construct,
      .finish (answer logic self.server_context self.request).1
        (answer logic self.server_context self.request).2]⟩ := by
  rw [complete, h, if_neg (by decide)]
  unfold answer
  dsimp only
  cases logic self.server_context self.request <;> rfl

end Complete

/-! ### The handlers -/

/-- What happens to a handler. -/
inductive HandlerEvent (ServerContext Request Response : Type) where
  /-- A request arrives, or none if not `isOk`. -/
  | request (isOk : Bool) (context : ServerContext) (request : Request)
  /-- The event of the `Finish` arrives. -/
  | finished (isOk : Bool)
  | finish (response : Response) (status : Status)
  | delete
  /-- An event arrives for the handler after it has been deleted. -/
  | dangling

/-- One handler. -/
structure HandlerSlot (ServerContext Request Response : Type) where
  /-- The object, until it is deleted. -/
  object : Option (ServerRpcHandler ServerContext Request)
  pending : List PendingOp
  /-- What has happened to the handler. -/
  trace : List (HandlerEvent ServerContext Request Response)

/-- The handlers, numbered as they are constructed. -/
structure Handlers (ServerContext Request Response : Type) where
  /-- The number of handlers constructed. -/
  size : ℕ
  slot : ℕ → HandlerSlot ServerContext Request Response

/-- The deliveries of gRPC. -/
inductive Delivery (ServerContext Request : Type) where
  /-- The event for `bind_request_`; gRPC has written the context and the request. -/
  | request (i : ℕ) (isOk : Bool) (context : ServerContext) (request : Request)
  /-- The event for `Finish`. -/
  | finished (i : ℕ) (isOk : Bool)

/-- The handler the event is for. -/
def Delivery.handler {ServerContext Request : Type} : Delivery ServerContext Request → ℕ
  | .request i _ _ _ | .finished i _ => i

/-- The operation the event is for. -/
def Delivery.op {ServerContext Request : Type} : Delivery ServerContext Request → PendingOp
  | .request _ _ _ _ => .request
  | .finished _ _ => .finish

namespace Handlers

variable {ServerContext Request Response : Type}

def modify (s : Handlers ServerContext Request Response) (i : ℕ)
    (f : HandlerSlot ServerContext Request Response → HandlerSlot ServerContext Request Response) :
    Handlers ServerContext Request Response :=
  { s with slot := Function.update s.slot i (f (s.slot i)) }

variable [Inhabited ServerContext] [Inhabited Request]

/-- A handler whose constructor has returned. -/
def armedSlot : HandlerSlot ServerContext Request Response where
  object := some ⟨default, default, false⟩
  pending := [.request]
  trace := []

/-- The constructor of `ServerRpcHandler`. -/
def construct (s : Handlers ServerContext Request Response) :
    Handlers ServerContext Request Response :=
  { size := s.size + 1, slot := Function.update s.slot s.size armedSlot }

/-- `wire_rpcs` has constructed the first handler. -/
def initial : Handlers ServerContext Request Response :=
  construct ⟨0, fun _ => ⟨none, [], []⟩⟩

/-- An effect of the handler's `complete`. -/
def affect (i : ℕ) (s : Handlers ServerContext Request Response) :
    HandlerEffect Response → Handlers ServerContext Request Response
  | .construct => s.construct
  | .finish response status => s.modify i fun c =>
      { c with pending := c.pending ++ [.finish], trace := c.trace ++ [.finish response status] }
  | .delete => s.modify i fun c => { c with object := none, trace := c.trace ++ [.delete] }

variable [Inhabited Response]

/-- The event for a pending operation arrives: the context calls `complete`. A program that calls
it on a deleted handler goes on, and one whose `complete` throws does not. -/
def deliver (logic : RpcLogicThunk ServerContext Request Response)
    (s : Handlers ServerContext Request Response) (i : ℕ) (op : PendingOp) (isOk : Bool)
    (event : HandlerEvent ServerContext Request Response)
    (write : ServerRpcHandler ServerContext Request → ServerRpcHandler ServerContext Request) :
    Option (Handlers ServerContext Request Response) :=
  if op ∈ (s.slot i).pending then
    let s := s.modify i fun c =>
      { c with pending := c.pending.erase op, trace := c.trace ++ [event] }
    match (s.slot i).object with
    | none => some (s.modify i fun c => { c with trace := c.trace ++ [.dangling] })
    | some self =>
        let run := (write self).complete logic isOk
        match run.result with
        | .ok self =>
            some (run.log.foldl (affect i) (s.modify i fun c => { c with object := self }))
        | .error _ => none
  else none

/-- One delivery. -/
def step (logic : RpcLogicThunk ServerContext Request Response)
    (s : Handlers ServerContext Request Response) :
    Delivery ServerContext Request → Option (Handlers ServerContext Request Response)
  | .request i isOk context request =>
      s.deliver logic i .request isOk (.request isOk context request) fun self =>
        { self with server_context := context, request := request }
  | .finished i isOk => s.deliver logic i .finish isOk (.finished isOk) id

end Handlers

/-- The server whose handlers are completed in any order. -/
def serverSystem {ServerContext Request Response : Type} [Inhabited ServerContext]
    [Inhabited Request] [Inhabited Response]
    (logic : RpcLogicThunk ServerContext Request Response) :
    System (Handlers ServerContext Request Response) (Delivery ServerContext Request) where
  Init s := s = .initial
  step := Handlers.step logic

/-! ### The lives of a handler -/

namespace Handlers

variable {ServerContext Request Response : Type} [Inhabited ServerContext] [Inhabited Request]
  [Inhabited Response]

/-- The slot of a handler, from when it is constructed to after its deletion: it is deleted on the
failure of its request, or it answers its request and is deleted on the event for that. -/
inductive Life (logic : RpcLogicThunk ServerContext Request Response) :
    HandlerSlot ServerContext Request Response → Prop
  | armed {self : ServerRpcHandler ServerContext Request} :
      self.delete_on_next_complete = false → Life logic ⟨some self, [.request], []⟩
  | refused {context : ServerContext} {request : Request} :
      Life logic ⟨none, [], [.request false context request, .delete]⟩
  | serving {self : ServerRpcHandler ServerContext Request} {context : ServerContext}
      {request : Request} : self.delete_on_next_complete = true →
      Life logic ⟨some self, [.finish], [.request true context request,
        .finish (answer logic context request).1 (answer logic context request).2]⟩
  | served {context : ServerContext} {request : Request} {isOk : Bool} :
      Life logic ⟨none, [], [.request true context request,
        .finish (answer logic context request).1 (answer logic context request).2,
        .finished isOk, .delete]⟩

variable {logic : RpcLogicThunk ServerContext Request Response}
  {s s' : Handlers ServerContext Request Response} {a : Delivery ServerContext Request}

/-! ### What a delivery does -/

omit [Inhabited ServerContext] [Inhabited Request] [Inhabited Response] in
theorem modify_modify (s : Handlers ServerContext Request Response) (i : ℕ)
    (f g : HandlerSlot ServerContext Request Response →
      HandlerSlot ServerContext Request Response) :
    (s.modify i f).modify i g = s.modify i fun c => g (f c) := by
  simp [modify]

omit [Inhabited Response] in
theorem modify_construct {i : ℕ} (hi : i < s.size)
    (f : HandlerSlot ServerContext Request Response → HandlerSlot ServerContext Request Response) :
    s.construct.modify i f = (s.modify i f).construct := by
  simp only [modify, construct, Function.update_of_ne hi.ne]
  rw [Function.update_comm hi.ne']

/-- The handler is there, and its `complete` returns. -/
theorem deliver_of_complete {i : ℕ} {op : PendingOp} {isOk : Bool}
    {event : HandlerEvent ServerContext Request Response}
    {write : ServerRpcHandler ServerContext Request → ServerRpcHandler ServerContext Request}
    {self self' : ServerRpcHandler ServerContext Request} {effects : List (HandlerEffect Response)}
    (hop : op ∈ (s.slot i).pending) (hobject : (s.slot i).object = some self)
    (hrun : (write self).complete logic isOk = ⟨.ok self', effects⟩) :
    s.deliver logic i op isOk event write = some (effects.foldl (affect i) (s.modify i fun c =>
      ⟨some self', c.pending.erase op, c.trace ++ [event]⟩)) := by
  have hmodified : ((s.modify i fun c =>
      { c with pending := c.pending.erase op, trace := c.trace ++ [event] }).slot i).object =
      some self := by
    simp [modify, hobject]
  simp only [deliver, if_pos hop, hmodified, hrun, modify_modify]

/-- The request of an armed handler fails. -/
theorem step_refused {i : ℕ} {self : ServerRpcHandler ServerContext Request}
    (hslot : s.slot i = ⟨some self, [.request], []⟩) (context : ServerContext) (request : Request) :
    s.step logic (.request i false context request) =
      some (s.modify i fun _ => ⟨none, [], [.request false context request, .delete]⟩) := by
  have hrun := ServerRpcHandler.complete_delete logic
    { self with server_context := context, request := request } false (Bool.or_true _)
  rw [step, deliver_of_complete (by simp [hslot]) (by rw [hslot]) hrun]
  simp [affect, modify, hslot]

/-- The request of an armed handler arrives. -/
theorem step_served {i : ℕ} {self : ServerRpcHandler ServerContext Request}
    (hslot : s.slot i = ⟨some self, [.request], []⟩) (hi : i < s.size)
    (hself : self.delete_on_next_complete = false) (context : ServerContext) (request : Request) :
    s.step logic (.request i true context request) =
      some (s.modify i fun _ => ⟨some ⟨context, request, true⟩, [.finish],
        [.request true context request,
          .finish (answer logic context request).1
            (answer logic context request).2]⟩).construct := by
  have hrun := ServerRpcHandler.complete_answer logic
    { self with server_context := context, request := request } hself
  rw [step, deliver_of_complete (by simp [hslot]) (by rw [hslot]) hrun]
  have hsize : i < (s.modify i fun c => (⟨some ⟨context, request, true⟩, c.pending.erase .request,
      c.trace ++ [.request true context request]⟩ :
        HandlerSlot ServerContext Request Response)).size := hi
  simp only [affect, List.foldl_cons, List.foldl_nil, modify_construct hsize, modify_modify]
  simp [modify, hslot]

/-- The event for the answer arrives. -/
theorem step_finished {i : ℕ} {self : ServerRpcHandler ServerContext Request}
    {trace : List (HandlerEvent ServerContext Request Response)}
    (hslot : s.slot i = ⟨some self, [.finish], trace⟩)
    (hself : self.delete_on_next_complete = true) (isOk : Bool) :
    s.step logic (.finished i isOk) =
      some (s.modify i fun _ => ⟨none, [], trace ++ [.finished isOk, .delete]⟩) := by
  have hrun := ServerRpcHandler.complete_delete logic self isOk
    (Bool.or_eq_true_iff.mpr (Or.inl hself))
  rw [step, deliver_of_complete (by simp [hslot]) (by rw [hslot]) hrun]
  simp [affect, modify, hslot]

/-- What is reached: every handler that has been constructed lives one of its lives. -/
structure LivesOk (logic : RpcLogicThunk ServerContext Request Response)
    (s : Handlers ServerContext Request Response) : Prop where
  life : ∀ i < s.size, Life logic (s.slot i)
  fresh : ∀ i, s.size ≤ i → s.slot i = ⟨none, [], []⟩

/-- The deliveries that are possible, and what they do. -/
inductive Delivered (logic : RpcLogicThunk ServerContext Request Response)
    (s : Handlers ServerContext Request Response) :
    Delivery ServerContext Request → Handlers ServerContext Request Response → Prop
  | refused {i : ℕ} {self : ServerRpcHandler ServerContext Request} {context : ServerContext}
      {request : Request} : i < s.size → s.slot i = ⟨some self, [.request], []⟩ →
      Delivered logic s (.request i false context request)
        (s.modify i fun _ => ⟨none, [], [.request false context request, .delete]⟩)
  | served {i : ℕ} {self : ServerRpcHandler ServerContext Request} {context : ServerContext}
      {request : Request} : i < s.size → s.slot i = ⟨some self, [.request], []⟩ →
      Delivered logic s (.request i true context request)
        (s.modify i fun _ => ⟨some ⟨context, request, true⟩, [.finish],
          [.request true context request,
            .finish (answer logic context request).1 (answer logic context request).2]⟩).construct
  | finished {i : ℕ} {self : ServerRpcHandler ServerContext Request} {context : ServerContext}
      {request : Request} {isOk : Bool} : i < s.size →
      s.slot i = ⟨some self, [.finish], [.request true context request,
        .finish (answer logic context request).1 (answer logic context request).2]⟩ →
      Delivered logic s (.finished i isOk) (s.modify i fun _ => ⟨none, [],
        [.request true context request,
          .finish (answer logic context request).1 (answer logic context request).2,
          .finished isOk, .delete]⟩)

/-- An event arrives for a pending operation. -/
theorem pending_of_deliver {i : ℕ} {op : PendingOp} {isOk : Bool}
    {event : HandlerEvent ServerContext Request Response}
    {write : ServerRpcHandler ServerContext Request → ServerRpcHandler ServerContext Request}
    (h : s.deliver logic i op isOk event write = some s') : op ∈ (s.slot i).pending := by
  by_contra hop
  rw [deliver, if_neg hop] at h
  cases h

omit [Inhabited ServerContext] [Inhabited Request] in
theorem LivesOk.lt_size (hok : LivesOk logic s) {i : ℕ} {op : PendingOp}
    (hop : op ∈ (s.slot i).pending) : i < s.size := by
  by_contra hi
  rw [hok.fresh i (Nat.le_of_not_lt hi)] at hop
  cases hop

theorem LivesOk.delivered (hok : LivesOk logic s) (hs : s.step logic a = some s') :
    Delivered logic s a s' := by
  cases a with
  | request i isOk context request =>
    have hop := pending_of_deliver hs
    have hi := hok.lt_size hop
    generalize hslot : s.slot i = c at hop
    have hlife := hok.life i hi
    rw [hslot] at hlife
    cases hlife with
    | armed hself =>
      cases isOk with
      | false =>
        obtain rfl := Option.some_inj.mp ((step_refused hslot context request).symm.trans hs)
        exact .refused hi hslot
      | true =>
        obtain rfl :=
          Option.some_inj.mp ((step_served hslot hi hself context request).symm.trans hs)
        exact .served hi hslot
    | refused | serving | served => simp at hop
  | finished i isOk =>
    have hop := pending_of_deliver hs
    have hi := hok.lt_size hop
    generalize hslot : s.slot i = c at hop
    have hlife := hok.life i hi
    rw [hslot] at hlife
    cases hlife with
    | serving hself =>
      obtain rfl := Option.some_inj.mp ((step_finished hslot hself isOk).symm.trans hs)
      exact .finished hi hslot
    | armed | refused | served => simp at hop

/-- Every pending event may arrive. -/
theorem LivesOk.isSome_step (hok : LivesOk logic s) (a : Delivery ServerContext Request)
    (hop : a.op ∈ (s.slot a.handler).pending) : (s.step logic a).isSome := by
  have hi := hok.lt_size hop
  generalize hslot : s.slot a.handler = c at hop
  have hlife := hok.life a.handler hi
  rw [hslot] at hlife
  cases a with
  | request i isOk context request =>
    cases hlife with
    | armed hself =>
      cases isOk with
      | false => exact Option.isSome_of_eq_some (step_refused hslot context request)
      | true => exact Option.isSome_of_eq_some (step_served hslot hi hself context request)
    | refused | serving | served => simp [Delivery.op] at hop
  | finished i isOk =>
    cases hlife with
    | serving hself => exact Option.isSome_of_eq_some (step_finished hslot hself isOk)
    | armed | refused | served => simp [Delivery.op] at hop

omit [Inhabited ServerContext] [Inhabited Request] in
theorem LivesOk.modify (hok : LivesOk logic s) {i : ℕ} (hi : i < s.size)
    {c : HandlerSlot ServerContext Request Response} (hc : Life logic c) :
    LivesOk logic (s.modify i fun _ => c) where
  life j hj := by
    rcases eq_or_ne j i with rfl | hne
    · simpa [Handlers.modify] using hc
    · simpa [Handlers.modify, hne] using hok.life j hj
  fresh j hj := by
    have hne : j ≠ i := (Nat.lt_of_lt_of_le hi hj).ne'
    simpa [Handlers.modify, hne] using hok.fresh j hj

theorem LivesOk.construct (hok : LivesOk logic s) : LivesOk logic s.construct where
  life j hj := by
    rcases Nat.lt_succ_iff_lt_or_eq.mp hj with hlt | rfl
    · simpa [Handlers.construct, hlt.ne] using hok.life j hlt
    · have harmed : Life logic armedSlot := .armed rfl
      simpa [Handlers.construct] using harmed
  fresh j hj := by
    have hne : j ≠ s.size := (Nat.lt_of_succ_le hj).ne'
    simpa [Handlers.construct, hne] using hok.fresh j (Nat.le_of_succ_le hj)

theorem LivesOk.step (hok : LivesOk logic s) (hs : s.step logic a = some s') :
    LivesOk logic s' := by
  cases hok.delivered hs with
  | refused hi _ => exact hok.modify hi .refused
  | served hi _ => exact (hok.modify hi (.serving rfl)).construct
  | finished hi _ => exact hok.modify hi .served

theorem livesOk (h : (serverSystem logic).Reachable s) : LivesOk logic s := by
  refine h.invariant ?_ fun s a s' _ hok _ hs => hok.step hs
  rintro _ rfl
  exact LivesOk.construct ⟨fun _ hi => absurd hi (Nat.not_lt_zero _), fun _ _ => rfl⟩

/-! ### The handler that waits for a request -/

section Listening

omit [Inhabited ServerContext] [Inhabited Request] [Inhabited Response]

/-- A live handler waits for a request. -/
def Armed (s : Handlers ServerContext Request Response) (i : ℕ) : Prop :=
  (s.slot i).object.isSome ∧ .request ∈ (s.slot i).pending

/-- The request of the handler has failed. -/
def Refused (s : Handlers ServerContext Request Response) (i : ℕ) : Prop :=
  ∃ context request, .request false context request ∈ (s.slot i).trace

/-- One handler waits until a request has failed. -/
structure ListeningOk (s : Handlers ServerContext Request Response) : Prop where
  listens : (∀ i, ¬ s.Refused i) → ∃! i, s.Armed i
  closed : ∀ i j, s.Refused i → ¬ s.Armed j

variable {i j : ℕ} {c : HandlerSlot ServerContext Request Response}

theorem armed_modify_of_ne (hne : j ≠ i) : (s.modify i fun _ => c).Armed j ↔ s.Armed j := by
  simp [Armed, modify, hne]

theorem refused_modify_of_ne (hne : j ≠ i) : (s.modify i fun _ => c).Refused j ↔ s.Refused j := by
  simp [Refused, modify, hne]

/-- The handler that waits does so no more. -/
theorem ListeningOk.disarm (hok : ListeningOk s) (hi : s.Armed i) (hc : .request ∉ c.pending)
    (j : ℕ) : ¬ (s.modify i fun _ => c).Armed j := by
  intro hj
  rcases eq_or_ne j i with rfl | hne
  · have hpending := hj.2
    simp only [Handlers.modify, Function.update_self] at hpending
    exact hc hpending
  · rw [armed_modify_of_ne hne] at hj
    exact hne ((hok.listens fun k hk => hok.closed k i hk hi).unique hj hi)

/-- A handler that does not wait has been changed into one that does not, and no request has
failed. -/
theorem ListeningOk.of_not_armed (hok : ListeningOk s) (hi : ¬ s.Armed i)
    (hc : .request ∉ c.pending) (hrefused : (s.modify i fun _ => c).Refused i ↔ s.Refused i) :
    ListeningOk (s.modify i fun _ => c) := by
  have harmed : ∀ j, (s.modify i fun _ => c).Armed j ↔ s.Armed j := by
    intro j
    rcases eq_or_ne j i with rfl | hne
    · refine iff_of_false (fun hj => ?_) hi
      have hpending := hj.2
      simp only [Handlers.modify, Function.update_self] at hpending
      exact hc hpending
    · exact armed_modify_of_ne hne
  have hrefused : ∀ j, (s.modify i fun _ => c).Refused j ↔ s.Refused j := by
    intro j
    rcases eq_or_ne j i with rfl | hne
    · exact hrefused
    · exact refused_modify_of_ne hne
  constructor
  · simpa only [harmed, hrefused] using hok.listens
  · simpa only [harmed, hrefused] using hok.closed

variable [Inhabited ServerContext] [Inhabited Request]

theorem armed_construct : s.construct.Armed j ↔ j = s.size ∨ s.Armed j := by
  rcases eq_or_ne j s.size with rfl | hne
  · simp [Armed, construct, armedSlot]
  · simp [Armed, construct, hne]

theorem refused_of_construct (h : s.construct.Refused j) : s.Refused j := by
  rcases eq_or_ne j s.size with rfl | hne
  · simp [Refused, construct, armedSlot] at h
  · simpa [Refused, construct, hne] using h

/-- A handler is constructed where none waits. -/
theorem listeningOk_construct (harmed : ∀ j, ¬ s.Armed j) (hrefused : ∀ j, ¬ s.Refused j) :
    ListeningOk s.construct where
  listens _ := by
    refine ⟨s.size, armed_construct.mpr (Or.inl rfl), fun j hj => ?_⟩
    exact (armed_construct.mp hj).resolve_right (harmed j)
  closed i _ hi := absurd (refused_of_construct hi) (hrefused i)

end Listening

theorem ListeningOk.step (hlives : LivesOk logic s) (hok : ListeningOk s)
    (hs : s.step logic a = some s') : ListeningOk s' := by
  cases hlives.delivered hs with
  | @refused i self context request hi hslot =>
    have harmed : s.Armed i := by simp [Armed, hslot]
    refine ⟨fun hnot => ?_, fun _ j _ => hok.disarm harmed List.not_mem_nil j⟩
    exact absurd ⟨context, request, by simp [Handlers.modify]⟩ (hnot i)
  | @served i self context request hi hslot =>
    have harmed : s.Armed i := by simp [Armed, hslot]
    refine listeningOk_construct (hok.disarm harmed (by simp)) fun j hj => ?_
    rcases eq_or_ne j i with rfl | hne
    · simp [Refused, Handlers.modify] at hj
    · rw [refused_modify_of_ne hne] at hj
      exact hok.closed j i hj harmed
  | @finished i self context request isOk hi hslot =>
    refine hok.of_not_armed ?_ List.not_mem_nil ?_
    · simp [Armed, hslot]
    · simp [Refused, Handlers.modify, hslot]

/-- **The life cycle of the handlers.** Between the calls of `complete`, one live handler waits for
a request until the request of a handler fails, and none does from then on. Every handler lives one
of its lives: a request that arrives is answered by one `Finish`, and the handler is deleted once,
on the failure of its request or on the event for its `Finish`. No pending event is left stuck. -/
theorem handler_lives (h : (serverSystem logic).Reachable s) :
    ((∀ i, ¬ s.Refused i) → ∃! i, s.Armed i) ∧ (∀ i j, s.Refused i → ¬ s.Armed j) ∧
      (∀ i < s.size, Life logic (s.slot i)) ∧
      ∀ a, a.op ∈ (s.slot a.handler).pending → ((serverSystem logic).step s a).isSome := by
  have hlistening : ListeningOk s := by
    refine h.invariant ?_ fun s a s' hr hok _ hs => hok.step (livesOk hr) hs
    rintro _ rfl
    exact listeningOk_construct (fun j hj => by simp [Armed] at hj) fun j hj => by
      simp [Refused] at hj
  have hlives := livesOk h
  exact ⟨hlistening.listens, hlistening.closed, hlives.life, hlives.isSome_step⟩

/-- Two requests are answered, one of them after the logic has thrown, and the third fails. -/
theorem handler_lives_three : ∃ s : Handlers Unit ℕ ℕ,
    s.size = 3 ∧ s.Refused 2 ∧ (∀ j, ¬ s.Armed j) ∧
      (s.slot 0).trace.length = 4 ∧ (s.slot 1).trace.length = 4 := by
  let logic : RpcLogicThunk Unit ℕ ℕ := fun _ n => if n = 0 then .error .other else .ok (n + 1)
  let acts : List (Delivery Unit ℕ) := [.request 0 true () 5, .request 1 true () 0,
    .finished 0 true, .request 2 false () 0, .finished 1 false]
  let s := ((serverSystem logic).exec .initial acts).get (by decide)
  have hreach : (serverSystem logic).Reachable s :=
    System.reachable_of_exec rfl (Option.some_get _).symm
  have hrefused : s.Refused 2 := ⟨(), 0, List.mem_cons_self⟩
  exact ⟨s, by decide, hrefused, fun j => (handler_lives hreach).2.1 2 j hrefused, by decide,
    by decide⟩

end Handlers

end Sgrpc
