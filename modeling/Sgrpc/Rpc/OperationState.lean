import Sgrpc.Context.State
import Sgrpc.Effects.Run
import Sgrpc.Rpc.Status

/-!
# The operation states of the RPC senders

What the receiver of a started RPC is signalled, through the layers that each catch exceptions: the
completion that `RpcSenderOpState::invoke` makes, the one that `CallData` wraps around it,
`InflightRpc::complete`, and `invoke` itself when the context refuses the RPC; and the same for
`PureRpcSenderOpState`. Whatever throws, a receiver is signalled once (`signalled_once`).

The result type is not `void`: with that, `std::optional<ResultType>` is no type.
-/

namespace Sgrpc

open Effects

/-- What is thrown: an `std::exception` with its `what()`, or something else. -/
inductive Exception where
  | std (what : String)
  | other
  deriving DecidableEq

/-- A signal that takes effect on a receiver. -/
inductive RpcSignal (ρ ε : Type) where
  | set_value (r : ρ)
  | set_error (e : ε)
  deriving DecidableEq

/-- A receiver of values `ρ`: the exception that its `set_value` throws, if any. Its `set_error`
does not throw. -/
abbrev Receiver (ρ : Type) := ρ → Option Exception

/-- Code that signals a receiver. -/
abbrev Signalling (ρ ε : Type) := Run Exception (RpcSignal ρ ε)

section Signals

variable {ρ ε : Type}

/-- `stdexec::set_value`: it takes effect when it returns. -/
def setValue (receiver : Receiver ρ) (r : ρ) : Signalling ρ ε Unit :=
  match receiver r with
  | none => .emit (.set_value r)
  | some e => throw e

/-- `stdexec::set_error`. -/
def setError (e : ε) : Signalling ρ ε Unit := .emit (.set_error e)

theorem once_setError (e : ε) : (setError e : Signalling ρ ε Unit).Once := Run.once_emit _

theorem orThrows_setValue (receiver : Receiver ρ) (r : ρ) :
    (setValue receiver r : Signalling ρ ε Unit).OnceOrThrows := by
  unfold setValue
  split
  · exact (Run.once_emit _).orThrows
  · exact Run.orThrows_throw _

end Signals

/-- An `InflightRpc`: its `completion_`. -/
structure InflightRpc (Response β : Type) where
  completion : Bool → Status → Response → Run Exception β Unit

/-- `InflightRpc::complete`: whatever the completion throws is swallowed. -/
def InflightRpc.complete {Response β : Type} (rpc : InflightRpc Response β) (isOk : Bool)
    (status : Status) (response : Response) : Run Exception β Unit :=
  try rpc.completion isOk status response catch _ => pure ⟨⟩

/-- Nothing that the completion has signalled is lost. -/
theorem InflightRpc.log_complete {Response β : Type} (rpc : InflightRpc Response β) (isOk : Bool)
    (status : Status) (response : Response) :
    (rpc.complete isOk status response).log = (rpc.completion isOk status response).log :=
  Run.log_catching_pure _ _

/-- `post(RpcFactory)` in a context whose state is `st`: the event that the factory makes, if it is
invoked. -/
def postFactory {Response β : Type} (st : ExecutionState)
    (factory : Unit → InflightRpc Response β) : Option (InflightRpc Response β) :=
  if st.canPost then some (factory ()) else none

/-! ### The pure sender -/

section Pure

variable {Response : Type}

/-- The completion of `PureRpcSenderOpState::invoke`. -/
def pureCompletion (receiver : Receiver Response) (isOk : Bool) (status : Status)
    (response : Response) : Signalling Response Status Unit :=
  if !isOk then
    setError ⟨.UNAVAILABLE, "operation posted after shutdown"⟩
  else if !status.ok then
    setError ⟨status.errorCode, status.errorMessage⟩
  else
    try setValue receiver response
    catch
      | .std what => setError ⟨.INTERNAL, "exception unpacking protobuf, " ++ what⟩
      | .other => setError ⟨.INTERNAL, "unknown exception unpacking protobuf"⟩

/-- `PureRpcSenderOpState::invoke`, in a context whose state is `st`, and the RPC it has started. -/
def pureInvoke (receiver : Receiver Response) (st : ExecutionState) :
    Signalling Response Status (Option (InflightRpc Response (RpcSignal Response Status))) := do
  let invoked := postFactory st fun _ => ⟨pureCompletion receiver⟩
  if invoked.isNone then
    setError ⟨.UNAVAILABLE, "rpc was not scheduled because the service was unavailable"⟩
  return invoked

theorem pureInvoke_refused (receiver : Receiver Response) {st : ExecutionState}
    (h : st.canPost = false) : pureInvoke receiver st = ⟨.ok none, [.set_error
      ⟨.UNAVAILABLE, "rpc was not scheduled because the service was unavailable"⟩]⟩ := by
  rw [pureInvoke, postFactory, h]
  rfl

theorem pureInvoke_accepted (receiver : Receiver Response) {st : ExecutionState}
    (h : st.canPost = true) :
    pureInvoke receiver st = ⟨.ok (some ⟨pureCompletion receiver⟩), []⟩ := by
  rw [pureInvoke, postFactory, h]
  rfl

end Pure

/-! ### The type-erased sender -/

section Wrapped

variable {Response ρ : Type}

/-- `WrappedCompletionHandler`. -/
abbrev WrappedCompletionHandler (β ρ : Type) :=
  Bool → Status → Option ρ → Run Exception β Unit

/-- The completion that `RpcSenderOpState::invoke` passes to `call_factory_`. -/
def wrappedCompletion (receiver : Receiver ρ) :
    WrappedCompletionHandler (RpcSignal ρ RpcStatus) ρ :=
  fun isOk status result =>
    if !isOk then
      setError ⟨.Unavailable, ""⟩
    else if !status.ok then
      setError ⟨toRpcStatusCode status.errorCode, status.errorMessage⟩
    else
      match result with
      | none => setError ⟨.Internal, ""⟩
      | some r =>
          try setValue receiver r
          catch
            | .std _ => setError ⟨.Internal, status.errorMessage⟩
            | .other => setError ⟨.Internal, "exception unpacking protobuf"⟩

/-- A call of an `std::function`, which throws `std::bad_function_call` when it is empty. -/
def callCompletion {β : Type} (completion : Option (WrappedCompletionHandler β ρ)) :
    WrappedCompletionHandler β ρ :=
  completion.getD fun _ _ _ => throw (.std "bad_function_call")

/-- The status with which `CallData` reports an exception of the conversion. -/
def conversionStatus : Exception → Status
  | .std what => ⟨.INTERNAL, "exception unpacking protobuf, " ++ what⟩
  | .other => ⟨.INTERNAL, "exception unpacking protobuf"⟩

/-- The curried completion that `CallData::operator()` makes of `completion`. -/
def curriedCompletion {β : Type} (convert : Response → Except Exception ρ)
    (completion : Option (WrappedCompletionHandler β ρ)) (isOk : Bool) (status : Status)
    (response : Response) : Run Exception β Unit :=
  try do
    let result ← Run.ofExcept (convert response)
    callCompletion completion isOk status (some result)
  catch e => callCompletion completion isOk (conversionStatus e) none

/-- An exception of the conversion is reported. -/
theorem curriedCompletion_of_error {β : Type} {convert : Response → Except Exception ρ}
    {response : Response} {e : Exception} (h : convert response = .error e)
    (completion : Option (WrappedCompletionHandler β ρ)) (isOk : Bool) (status : Status) :
    curriedCompletion convert completion isOk status response =
      callCompletion completion isOk (conversionStatus e) none := by
  rw [curriedCompletion, h]
  rfl

/-- A completion that returns is called with what has been converted. -/
theorem curriedCompletion_of_ok {β : Type} {convert : Response → Except Exception ρ}
    {response : Response} {r : ρ} (h : convert response = .ok r)
    {completion : WrappedCompletionHandler β ρ} {isOk : Bool} {status : Status}
    (hreturns : ∃ a, (completion isOk status (some r)).result = .ok a) :
    curriedCompletion convert (some completion) isOk status response =
      completion isOk status (some r) := by
  rw [curriedCompletion, h, Run.ofExcept_ok_bind]
  exact Run.tryCatch_of_returns hreturns _

/-- `RpcSenderOpState::invoke`, in a context whose state is `st`, and the RPC it has started. The
`CallData` is that of this operation alone. -/
def invoke (convert : Response → Except Exception ρ) (receiver : Receiver ρ) (st : ExecutionState) :
    Signalling ρ RpcStatus (Option (InflightRpc Response (RpcSignal ρ RpcStatus))) := do
  let invoked := postFactory st fun _ =>
    ⟨curriedCompletion convert (some (wrappedCompletion receiver))⟩
  if invoked.isNone then setError ⟨.Unavailable, ""⟩
  return invoked

theorem invoke_refused (convert : Response → Except Exception ρ) (receiver : Receiver ρ)
    {st : ExecutionState} (h : st.canPost = false) :
    invoke convert receiver st = ⟨.ok none, [.set_error ⟨.Unavailable, ""⟩]⟩ := by
  rw [invoke, postFactory, h]
  rfl

theorem invoke_accepted (convert : Response → Except Exception ρ) (receiver : Receiver ρ)
    {st : ExecutionState} (h : st.canPost = true) : invoke convert receiver st =
      ⟨.ok (some ⟨curriedCompletion convert (some (wrappedCompletion receiver))⟩), []⟩ := by
  rw [invoke, postFactory, h]
  rfl

/-! ### One signal -/

/-- The completion signals once, whether or not `set_value` throws. -/
theorem once_wrappedCompletion (receiver : Receiver ρ) (isOk : Bool) (status : Status)
    (result : Option ρ) : (wrappedCompletion receiver isOk status result).Once := by
  unfold wrappedCompletion
  split
  · exact once_setError _
  · split
    · exact once_setError _
    · cases result with
      | none => exact once_setError _
      | some r =>
        refine (orThrows_setValue receiver r).tryCatch fun e => ?_
        cases e <;> exact once_setError _

/-- A completion that signals once is not called a second time, and is called when the conversion
throws. -/
theorem once_curriedCompletion {β : Type} (convert : Response → Except Exception ρ)
    {completion : WrappedCompletionHandler β ρ}
    (hcompletion : ∀ isOk status result, (completion isOk status result).Once) (isOk : Bool)
    (status : Status) (response : Response) :
    (curriedCompletion convert (some completion) isOk status response).Once := by
  refine Run.OnceOrThrows.tryCatch ?_ fun e => hcompletion isOk (conversionStatus e) none
  exact Run.orThrows_ofExcept_bind _ fun r => (hcompletion isOk status (some r)).orThrows

theorem InflightRpc.once_complete {β : Type} {rpc : InflightRpc Response β} {isOk : Bool}
    {status : Status} {response : Response} (h : (rpc.completion isOk status response).Once) :
    (rpc.complete isOk status response).Once :=
  h.tryCatch _

/-- **One signal for each operation.** An RPC that the context refuses has signalled its receiver
once when `start` returns; one that it accepts has not, and signals it once in the `complete` of
its `InflightRpc`: whatever the outcome is, and whether or not the conversion and `set_value`
throw. -/
theorem signalled_once (convert : Response → Except Exception ρ) (receiver : Receiver ρ)
    (st : ExecutionState) :
    (st.canPost = false → (invoke convert receiver st).result = .ok none ∧
        (invoke convert receiver st).log.length = 1) ∧
      (st.canPost = true → ∃ rpc, (invoke convert receiver st).result = .ok (some rpc) ∧
        (invoke convert receiver st).log = [] ∧
        ∀ isOk status response, (rpc.complete isOk status response).Once) := by
  constructor
  · intro hpost
    rw [invoke_refused convert receiver hpost]
    exact ⟨rfl, rfl⟩
  · intro hpost
    rw [invoke_accepted convert receiver hpost]
    refine ⟨_, rfl, rfl, fun isOk status response => InflightRpc.once_complete ?_⟩
    exact once_curriedCompletion convert (once_wrappedCompletion receiver) isOk status response

end Wrapped

end Sgrpc
