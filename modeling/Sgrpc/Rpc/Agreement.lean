import Sgrpc.Rpc.OperationState

/-!
# The two RPC senders

The type-erased sender converts the response before it looks at the status of the RPC. So it tells
its receiver what the pure one tells its own, but for an RPC that has failed and whose (default)
response the conversion does not accept: then the receiver is told of the conversion
(`agrees_iff`).
-/

namespace Sgrpc

open Effects

variable {Response ρ : Type}

/-- The state in which the context is asked to start an RPC, and how the RPC ends if it does. -/
structure RpcOutcome (Response : Type) where
  state : ExecutionState
  isOk : Bool
  status : Status
  response : Response

/-- The signals of an operation: those of `start`, and those of the `complete` of its RPC. -/
def RpcOutcome.signals {β : Type} (o : RpcOutcome Response)
    (start : ExecutionState → Run Exception β (Option (InflightRpc Response β))) : List β :=
  match (start o.state).result with
  | .ok (some rpc) => (start o.state).log ++ (rpc.complete o.isOk o.status o.response).log
  | _ => (start o.state).log

/-- A receiver whose `set_value` does not throw. -/
def Receiver.quiet : Receiver ρ := fun _ => none

/-- The signals of the pure sender. -/
def RpcOutcome.pureSignals (o : RpcOutcome Response) : List (RpcSignal Response Status) :=
  o.signals (pureInvoke .quiet)

/-- The signals of the type-erased sender. -/
def RpcOutcome.wrappedSignals (o : RpcOutcome Response)
    (convert : Response → Except Exception ρ) : List (RpcSignal ρ RpcStatus) :=
  o.signals (invoke convert .quiet)

/-- The type-erased sender signals what the pure one signals: an error with the same code, and the
message of the RPC when it has failed; and the converted value, or the error `Internal` when it
cannot be converted. -/
structure Agrees (convert : Response → Except Exception ρ) (o : RpcOutcome Response) : Prop where
  error : ∀ status, .set_error status ∈ o.pureSignals → ∃ details,
    o.wrappedSignals convert = [.set_error ⟨toRpcStatusCode status.errorCode, details⟩] ∧
      (o.state.canPost = true → o.isOk = true → o.status.ok = false →
        details = o.status.errorMessage)
  value : ∀ response, .set_value response ∈ o.pureSignals →
    (∀ r, convert response = .ok r → o.wrappedSignals convert = [.set_value r]) ∧
      ∀ e, convert response = .error e →
        ∃ details, o.wrappedSignals convert = [.set_error ⟨.Internal, details⟩]

/-! ### What is signalled -/

theorem pureSignals_eq (o : RpcOutcome Response) : o.pureSignals =
    if !o.state.canPost then
      [.set_error ⟨.UNAVAILABLE, "rpc was not scheduled because the service was unavailable"⟩]
    else if !o.isOk then [.set_error ⟨.UNAVAILABLE, "operation posted after shutdown"⟩]
    else if !o.status.ok then [.set_error o.status]
    else [.set_value o.response] := by
  obtain ⟨st, isOk, status, response⟩ := o
  rw [RpcOutcome.pureSignals, RpcOutcome.signals]
  cases hpost : st.canPost with
  | false =>
    rw [pureInvoke_refused _ hpost]
    rfl
  | true =>
    rw [pureInvoke_accepted _ hpost]
    show [] ++ (InflightRpc.complete _ isOk status response).log = _
    rw [List.nil_append, InflightRpc.log_complete]
    show (pureCompletion .quiet isOk status response).log = _
    cases isOk with
    | false => rfl
    | true =>
      cases hok : status.ok with
      | false =>
        rw [pureCompletion, hok]
        rfl
      | true =>
        rw [pureCompletion, hok]
        rfl

theorem wrappedSignals_eq (o : RpcOutcome Response) (convert : Response → Except Exception ρ) :
    o.wrappedSignals convert =
      if !o.state.canPost || !o.isOk then [.set_error ⟨.Unavailable, ""⟩]
      else match convert o.response with
        | .ok r =>
            if !o.status.ok then
              [.set_error ⟨toRpcStatusCode o.status.errorCode, o.status.errorMessage⟩]
            else [.set_value r]
        | .error e => [.set_error ⟨.Internal, (conversionStatus e).errorMessage⟩] := by
  obtain ⟨st, isOk, status, response⟩ := o
  rw [RpcOutcome.wrappedSignals, RpcOutcome.signals]
  cases hpost : st.canPost with
  | false =>
    rw [invoke_refused _ _ hpost]
    rfl
  | true =>
    rw [invoke_accepted _ _ hpost]
    show [] ++ (InflightRpc.complete _ isOk status response).log = _
    rw [List.nil_append, InflightRpc.log_complete]
    show (curriedCompletion convert (some (wrappedCompletion .quiet)) isOk status response).log = _
    cases hconvert : convert response with
    | error e =>
      rw [curriedCompletion_of_error hconvert]
      cases isOk with
      | false => rfl
      | true => cases e <;> rfl
    | ok r =>
      have hreturns := (once_wrappedCompletion .quiet isOk status (some r)).returns
      rw [curriedCompletion_of_ok hconvert hreturns]
      cases isOk with
      | false => rfl
      | true =>
        cases hok : status.ok with
        | false =>
          rw [wrappedCompletion, hok]
          rfl
        | true =>
          rw [wrappedCompletion, hok]
          rfl

theorem errorCode_conversionStatus (e : Exception) :
    (conversionStatus e).errorCode = .INTERNAL := by
  cases e <;> rfl

/-- Both senders signal an error. -/
theorem Agrees.of_error {convert : Response → Except Exception ρ} {o : RpcOutcome Response}
    {status : Status} {details : String} (hpure : o.pureSignals = [.set_error status])
    (hwrapped : o.wrappedSignals convert =
      [.set_error ⟨toRpcStatusCode status.errorCode, details⟩])
    (hdetails : o.state.canPost = true → o.isOk = true → o.status.ok = false →
      details = o.status.errorMessage) : Agrees convert o where
  error status' hmem := by
    rw [hpure, List.mem_singleton] at hmem
    cases hmem
    exact ⟨details, hwrapped, hdetails⟩
  value response hmem := by
    rw [hpure, List.mem_singleton] at hmem
    cases hmem

/-- The pure sender signals the response. -/
theorem Agrees.of_value {convert : Response → Except Exception ρ} {o : RpcOutcome Response}
    (hpure : o.pureSignals = [.set_value o.response])
    (hok : ∀ r, convert o.response = .ok r → o.wrappedSignals convert = [.set_value r])
    (herror : ∀ e, convert o.response = .error e →
      ∃ details, o.wrappedSignals convert = [.set_error ⟨.Internal, details⟩]) :
    Agrees convert o where
  error status hmem := by
    rw [hpure, List.mem_singleton] at hmem
    cases hmem
  value response hmem := by
    rw [hpure, List.mem_singleton] at hmem
    cases hmem
    exact ⟨hok, herror⟩

/-- **The two senders.** For an outcome the type-erased sender signals what the pure one signals if
and only if it is not that of an RPC that the context has accepted and that has failed with
`is_ok`, whose response the conversion does not accept; or the failure reads just like the error of
the conversion. -/
theorem agrees_iff (convert : Response → Except Exception ρ) (o : RpcOutcome Response) :
    Agrees convert o ↔ (o.state.canPost = true → o.isOk = true → o.status.ok = false →
      ∀ e, convert o.response = .error e → o.status = conversionStatus e) := by
  have hpure := pureSignals_eq o
  have hwrapped := wrappedSignals_eq o convert
  constructor
  · intro h hpost hisOk hok e he
    have hmem : RpcSignal.set_error o.status ∈ o.pureSignals := by simp [hpure, hpost, hisOk, hok]
    obtain ⟨details, heq, hdetails⟩ := h.error o.status hmem
    have hinternal : o.wrappedSignals convert =
        [.set_error ⟨.Internal, (conversionStatus e).errorMessage⟩] := by
      simp [hwrapped, hpost, hisOk, he]
    rw [hinternal, List.cons.injEq, RpcSignal.set_error.injEq, RpcStatus.mk.injEq] at heq
    obtain ⟨⟨hcode, hmessage⟩, -⟩ := heq
    refine Status.ext ?_ ?_
    · rw [toRpcStatusCode_eq_internal.mp hcode.symm, errorCode_conversionStatus]
    · rw [hmessage, hdetails hpost hisOk hok]
  · intro h
    by_cases hrefused : (!o.state.canPost || !o.isOk) = true
    · have herror : o.wrappedSignals convert = [.set_error ⟨.Unavailable, ""⟩] := by
        rw [hwrapped, if_pos hrefused]
      have hnot : o.state.canPost = true → o.isOk = true → o.status.ok = false →
          "" = o.status.errorMessage := by
        intro hpost hisOk
        simp [hpost, hisOk] at hrefused
      have hunavailable : ∃ message, o.pureSignals = [.set_error ⟨.UNAVAILABLE, message⟩] := by
        rw [hpure]
        cases hpost : o.state.canPost with
        | false => exact ⟨_, rfl⟩
        | true =>
          have hisOk : o.isOk = false := by simpa [hpost] using hrefused
          exact ⟨_, by simp [hisOk]; rfl⟩
      obtain ⟨message, hmessage⟩ := hunavailable
      exact .of_error hmessage herror hnot
    · obtain ⟨hpost, hisOk⟩ : o.state.canPost = true ∧ o.isOk = true := by simpa using hrefused
      cases hok : o.status.ok with
      | false =>
        have hfailed : o.pureSignals = [.set_error o.status] := by
          simp [hpure, hpost, hisOk, hok]
        cases hconvert : convert o.response with
        | ok r =>
          refine .of_error hfailed ?_ fun _ _ _ => rfl
          simp [hwrapped, hpost, hisOk, hok, hconvert]
        | error e =>
          have hstatus := h hpost hisOk hok e hconvert
          refine .of_error hfailed ?_ fun _ _ _ => rfl
          have hinternal : o.wrappedSignals convert =
              [.set_error ⟨.Internal, (conversionStatus e).errorMessage⟩] := by
            simp [hwrapped, hpost, hisOk, hconvert]
          rw [hinternal, hstatus, errorCode_conversionStatus]
          rfl
      | true =>
        refine .of_value (by simp [hpure, hpost, hisOk, hok]) (fun r hr => ?_) fun e he => ?_
        · simp [hwrapped, hpost, hisOk, hok, hr]
        · exact ⟨(conversionStatus e).errorMessage, by simp [hwrapped, hpost, hisOk, he]⟩

/-- An RPC fails with `NOT_FOUND`, and the conversion does not accept the default response. -/
theorem exists_masked_status : ¬ ∀ (convert : Bool → Except Exception Unit)
    (o : RpcOutcome Bool), Agrees convert o := by
  intro hall
  let convert : Bool → Except Exception Unit := fun b => if b then .ok () else .error .other
  let o : RpcOutcome Bool := ⟨.Running, true, ⟨.NOT_FOUND, "nobody to greet"⟩, false⟩
  have hpure : o.pureSignals = [.set_error ⟨.NOT_FOUND, "nobody to greet"⟩] := rfl
  have hwrapped : o.wrappedSignals convert =
      [.set_error ⟨.Internal, "exception unpacking protobuf"⟩] := rfl
  obtain ⟨details, heq, -⟩ := (hall convert o).error _ (hpure ▸ List.mem_singleton_self _)
  rw [hwrapped, List.cons.injEq, RpcSignal.set_error.injEq, RpcStatus.mk.injEq] at heq
  exact absurd heq.1.1 (by decide)

end Sgrpc
