import Mathlib.Data.Int.Notation
import Mathlib.Tactic.Common

/-!
# Status codes

The status of an RPC as gRPC reports it, and as the senders pass it on. `to_rpc_status_code`
translates the codes of gRPC; a code without a name becomes `Unspecified`.
-/

namespace Sgrpc

/-- `grpc::StatusCode`. -/
inductive StatusCode where
  | OK
  | CANCELLED
  | UNKNOWN
  | INVALID_ARGUMENT
  | DEADLINE_EXCEEDED
  | NOT_FOUND
  | ALREADY_EXISTS
  | PERMISSION_DENIED
  | UNAUTHENTICATED
  | RESOURCE_EXHAUSTED
  | FAILED_PRECONDITION
  | ABORTED
  | OUT_OF_RANGE
  | UNIMPLEMENTED
  | INTERNAL
  | UNAVAILABLE
  | DATA_LOSS
  | DO_NOT_USE
  /-- A value of the enumeration that is none of its enumerators. -/
  | unnamed (value : ℤ)
  deriving DecidableEq

/-- `RpcStatusCode`. -/
inductive RpcStatusCode where
  | Ok
  | Cancelled
  | Unknown
  | InvalidArgument
  | DeadlineExceeded
  | NotFound
  | AlreadyExists
  | PermissionDenied
  | ResourceExhausted
  | FailedPrecondition
  | Aborted
  | OutOfRange
  | Unimplemented
  | Internal
  | Unavailable
  | DataLoss
  | Unauthenticated
  | Unspecified
  deriving DecidableEq

/-- `to_rpc_status_code`. -/
def toRpcStatusCode : StatusCode → RpcStatusCode
  | .OK => .Ok
  | .CANCELLED => .Cancelled
  | .UNKNOWN => .Unknown
  | .INVALID_ARGUMENT => .InvalidArgument
  | .DEADLINE_EXCEEDED => .DeadlineExceeded
  | .NOT_FOUND => .NotFound
  | .ALREADY_EXISTS => .AlreadyExists
  | .PERMISSION_DENIED => .PermissionDenied
  | .UNAUTHENTICATED => .Unauthenticated
  | .RESOURCE_EXHAUSTED => .ResourceExhausted
  | .FAILED_PRECONDITION => .FailedPrecondition
  | .ABORTED => .Aborted
  | .OUT_OF_RANGE => .OutOfRange
  | .UNIMPLEMENTED => .Unimplemented
  | .INTERNAL => .Internal
  | .UNAVAILABLE => .Unavailable
  | .DATA_LOSS => .DataLoss
  | .DO_NOT_USE => .Unspecified
  | .unnamed _ => .Unspecified

/-- `grpc::Status`. -/
@[ext]
structure Status where
  errorCode : StatusCode
  errorMessage : String
  deriving DecidableEq

/-- `Status::ok`. -/
def Status.ok (status : Status) : Bool := status.errorCode = .OK

/-- `RpcStatus`. -/
structure RpcStatus where
  errorCode : RpcStatusCode
  details : String
  deriving DecidableEq

/-- `Internal` stands for one code of gRPC. -/
theorem toRpcStatusCode_eq_internal {code : StatusCode} :
    toRpcStatusCode code = .Internal ↔ code = .INTERNAL := by
  cases code <;> simp [toRpcStatusCode]

end Sgrpc
