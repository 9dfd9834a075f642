import Mathlib.Logic.Function.Basic
import Sgrpc.Interleaving.System
import Sgrpc.Rpc.OperationState

/-!
# Copies of a sender

The copies of a `ClientRpcSender` share one `CallData`. The `start` of a copy stores its completion
there, and the factory that the context invokes moves out what it finds there. So the copies are
independent as long as every factory finds the completion that its own `start` has stored, and not
beyond (`independent_iff`).
-/

namespace Sgrpc

open Effects Interleaving

/-- Where a copy is, whose `start` is called once. -/
inductive SenderPc (ι : Type*) where
  | idle
  /-- The completion is in the call data, and the factory is passed to `post`. -/
  | stored
  /-- `post` has returned `false`. -/
  | refused
  /-- The context invokes the factory. -/
  | invoked
  /-- The factory has moved the completion out of the call data, and makes the RPC next. -/
  | moved (completion : Option ι)
  | inflight (completion : Option ι)
  | completed (completion : Option ι)
  deriving DecidableEq

namespace SenderPc

variable {ι : Type*}

/-- The completion that the factory has found, by the copy that has stored it. -/
def found : SenderPc ι → Option (Option ι)
  | .moved c | .inflight c | .completed c => some c
  | _ => none

/-- The RPC has been started. -/
def Started : SenderPc ι → Bool
  | .inflight _ | .completed _ => true
  | _ => false

/-- The RPC has completed. -/
def Completed : SenderPc ι → Bool
  | .completed _ => true
  | _ => false

/-- The copies whose completion the `complete` of the RPC has called. -/
def called : SenderPc ι → List ι
  | .completed c => c.toList
  | _ => []

end SenderPc

/-- The call data, and where each copy is. -/
structure Senders (ι Request ρ : Type) where
  -- members of `CallData`
  request : Request
  /-- By the copy whose receiver it signals; `none` is the empty function. -/
  completion : Option ι
  -- control
  op : ι → SenderPc ι
  -- history
  /-- The requests sent for each copy. -/
  sent : ι → List Request
  /-- The signals that the `complete` of each copy's RPC has sent, with their receivers. -/
  delivered : ι → List (ι × RpcSignal ρ RpcStatus)
  /-- The signals that each copy has sent to its own receiver in `start`. -/
  started : ι → List (RpcSignal ρ RpcStatus)

/-- The steps of a copy. -/
inductive SenderAct (ι Response : Type) where
  /-- `call_factory_` stores the completion. -/
  | store (i : ι)
  /-- `post` reads the state. -/
  | post (i : ι) (st : ExecutionState)
  /-- The factory moves the completion. -/
  | move (i : ι)
  /-- `InflightRpc` is constructed. -/
  | send (i : ι)
  | complete (i : ι) (isOk : Bool) (status : Status) (response : Response)
  deriving DecidableEq

/-- The copy that takes the step. -/
def SenderAct.copy {ι Response : Type} : SenderAct ι Response → ι
  | .store i | .post i _ | .move i | .send i | .complete i _ _ _ => i

namespace Senders

variable {ι Request Response ρ : Type}

/-- Nothing has been started. -/
def initial (request : Request) : Senders ι Request ρ where
  request := request
  completion := none
  op _ := .idle
  sent _ := []
  delivered _ := []
  started _ := []

/-- What the RPC signals whose factory has found the completion of the copy. -/
def signals (convert : Response → Except Exception ρ) (receiver : ι → Receiver ρ)
    (completion : Option ι) (isOk : Bool) (status : Status) (response : Response) :
    List (ι × RpcSignal ρ RpcStatus) :=
  let handler (i : ι) : WrappedCompletionHandler (ι × RpcSignal ρ RpcStatus) ρ :=
    fun isOk status result => (wrappedCompletion (receiver i) isOk status result).mapLog (i, ·)
  let rpc : InflightRpc Response (ι × RpcSignal ρ RpcStatus) :=
    ⟨curriedCompletion convert (completion.map handler)⟩
  (rpc.complete isOk status response).log

variable [DecidableEq ι]

def setOp (s : Senders ι Request ρ) (i : ι) (pc : SenderPc ι) : Senders ι Request ρ :=
  { s with op := Function.update s.op i pc }

/-- One step of one copy. -/
def step (convert : Response → Except Exception ρ) (receiver : ι → Receiver ρ)
    (s : Senders ι Request ρ) : SenderAct ι Response → Option (Senders ι Request ρ)
  | .store i =>
      match s.op i with
      | .idle => some { s.setOp i .stored with completion := some i }
      | _ => none
  | .post i st =>
      match s.op i with
      | .stored =>
          if st.canPost then some (s.setOp i .invoked)
          else some { s.setOp i .refused with
            started :=
              Function.update s.started i (s.started i ++ [.set_error ⟨.Unavailable, ""⟩]) }
      | _ => none
  | .move i =>
      match s.op i with
      | .invoked => some { s.setOp i (.moved s.completion) with completion := none }
      | _ => none
  | .send i =>
      match s.op i with
      | .moved c => some { s.setOp i (.inflight c) with
          sent := Function.update s.sent i (s.sent i ++ [s.request]) }
      | _ => none
  | .complete i isOk status response =>
      match s.op i with
      | .inflight c => some { s.setOp i (.completed c) with
          delivered := Function.update s.delivered i
            (s.delivered i ++ signals convert receiver c isOk status response) }
      | _ => none

/-- What a step can do. -/
inductive Step (convert : Response → Except Exception ρ) (receiver : ι → Receiver ρ)
    (s : Senders ι Request ρ) : SenderAct ι Response → Senders ι Request ρ → Prop
  | store {i : ι} : s.op i = .idle →
      Step convert receiver s (.store i) { s.setOp i .stored with completion := some i }
  | accepted {i : ι} {st : ExecutionState} : s.op i = .stored → st.canPost = true →
      Step convert receiver s (.post i st) (s.setOp i .invoked)
  | refused {i : ι} {st : ExecutionState} : s.op i = .stored → st.canPost = false →
      Step convert receiver s (.post i st) { s.setOp i .refused with
        started := Function.update s.started i (s.started i ++ [.set_error ⟨.Unavailable, ""⟩]) }
  | move {i : ι} : s.op i = .invoked →
      Step convert receiver s (.move i) { s.setOp i (.moved s.completion) with completion := none }
  | send {i : ι} {c : Option ι} : s.op i = .moved c →
      Step convert receiver s (.send i) { s.setOp i (.inflight c) with
        sent := Function.update s.sent i (s.sent i ++ [s.request]) }
  | complete {i : ι} {c : Option ι} {isOk : Bool} {status : Status} {response : Response} :
      s.op i = .inflight c →
      Step convert receiver s (.complete i isOk status response) { s.setOp i (.completed c) with
        delivered := Function.update s.delivered i
          (s.delivered i ++ signals convert receiver c isOk status response) }

variable {convert : Response → Except Exception ρ} {receiver : ι → Receiver ρ}
  {s s' : Senders ι Request ρ} {a : SenderAct ι Response} {i : ι}

theorem step_cases (h : s.step convert receiver a = some s') : Step convert receiver s a s' := by
  cases a with
  | post i st =>
    simp only [step] at h
    split at h
    · next hpc =>
      split at h
      · next hst =>
        cases h
        exact .accepted hpc hst
      · next hst =>
        cases h
        exact .refused hpc (eq_false_of_ne_true hst)
    · cases h
  | store i | move i | send i | complete i isOk status response =>
    simp only [step] at h
    split at h
    · next hpc =>
      cases h
      constructor
      exact hpc
    · cases h

omit [DecidableEq ι] in
/-- The conversion does not see the names of the receivers. -/
theorem mapLog_curriedCompletion {β γ : Type} (convert : Response → Except Exception ρ) (g : β → γ)
    (completion : WrappedCompletionHandler β ρ) (isOk : Bool) (status : Status)
    (response : Response) :
    curriedCompletion convert
        (some fun isOk status result => (completion isOk status result).mapLog g)
        isOk status response =
      (curriedCompletion convert (some completion) isOk status response).mapLog g := by
  unfold curriedCompletion
  rw [Run.mapLog_tryCatch, Run.mapLog_bind, Run.mapLog_ofExcept]
  rfl

omit [DecidableEq ι] in
/-- An RPC signals the receiver whose completion its factory has found, once, and no receiver when
it has found the empty function. -/
theorem receivers_signals (convert : Response → Except Exception ρ) (receiver : ι → Receiver ρ)
    (c : Option ι) (isOk : Bool) (status : Status) (response : Response) :
    (signals convert receiver c isOk status response).map Prod.fst = c.toList := by
  simp only [signals, InflightRpc.log_complete]
  cases c with
  | none =>
    have hlog : ∀ r : Except Exception ρ, (curriedCompletion (fun _ : Response => r)
        (none : Option (WrappedCompletionHandler (ι × RpcSignal ρ RpcStatus) ρ))
        isOk status response).log = [] := by
      rintro (_ | _) <;> rfl
    exact congrArg (List.map Prod.fst) (hlog (convert response))
  | some i =>
    have honce := once_curriedCompletion convert (once_wrappedCompletion (receiver i)) isOk status
      response
    rw [Option.map_some, mapLog_curriedCompletion, Run.mapLog, List.map_map]
    obtain ⟨signal, hsignal⟩ := List.length_eq_one_iff.mp honce.log
    rw [hsignal]
    rfl

/-! ### What a run keeps -/

theorem Step.request (h : Step convert receiver s a s') : s'.request = s.request := by
  cases h <;> rfl

/-- A step changes nothing of the other copies. -/
theorem Step.frame (h : Step convert receiver s a s') (hi : i ≠ a.copy) :
    s'.op i = s.op i ∧ s'.sent i = s.sent i ∧ s'.delivered i = s.delivered i := by
  have hop (pc : SenderPc ι) : (s.setOp a.copy pc).op i = s.op i := Function.update_of_ne hi _ _
  cases h with
  | store | accepted | refused | move => exact ⟨hop _, rfl, rfl⟩
  | send => exact ⟨hop _, Function.update_of_ne hi _ _, rfl⟩
  | complete => exact ⟨hop _, rfl, Function.update_of_ne hi _ _⟩

/-- What a factory has found stays. -/
theorem Step.found {c : Option ι} (h : Step convert receiver s a s')
    (hc : (s.op i).found = some c) : (s'.op i).found = some c := by
  rcases eq_or_ne i a.copy with rfl | hi
  · cases h with
    | store hpc | accepted hpc _ | refused hpc _ | move hpc =>
      simp [SenderAct.copy, hpc, SenderPc.found] at hc
    | send hpc | complete hpc =>
      simpa [SenderAct.copy, setOp, hpc, SenderPc.found] using hc
  · rw [(h.frame hi).1, hc]

/-- A factory finds what is in the call data. -/
theorem Step.found_move (h : Step convert receiver s (.move i) s') :
    (s'.op i).found = some s.completion := by
  cases h
  simp [setOp, SenderPc.found]

/-- What is found only a `move` has found. -/
theorem Step.of_found {c : Option ι} (h : Step convert receiver s a s')
    (hc : (s'.op i).found = some c) :
    (s.op i).found = some c ∨ a = .move i ∧ c = s.completion := by
  rcases eq_or_ne i a.copy with rfl | hi
  · cases h with
    | store hpc | accepted hpc _ | refused hpc _ =>
      simp [SenderAct.copy, setOp, SenderPc.found] at hc
    | move hpc =>
      have hc' : some s.completion = some c := by
        simpa [SenderAct.copy, setOp, SenderPc.found] using hc
      exact Or.inr ⟨rfl, (Option.some_inj.mp hc').symm⟩
    | send hpc | complete hpc =>
      left
      simpa [SenderAct.copy, setOp, hpc, SenderPc.found] using hc
  · left
    rw [← (h.frame hi).1, hc]

/-- What has been sent and delivered for a copy. -/
structure CopyOk (request : Request) (s : Senders ι Request ρ) (i : ι) : Prop where
  sent : s.sent i = if (s.op i).Started then [request] else []
  delivered : (s.delivered i).map Prod.fst = (s.op i).called

theorem Step.copyOk (h : Step convert receiver s a s') (hok : CopyOk s.request s i) :
    CopyOk s.request s' i := by
  rcases eq_or_ne i a.copy with rfl | hi
  · obtain ⟨hsent, hdelivered⟩ := hok
    cases h with
    | store hpc | accepted hpc _ | refused hpc _ | move hpc | send hpc | complete hpc =>
      simp only [SenderAct.copy, hpc] at hsent hdelivered
      constructor
      · simpa [SenderAct.copy, setOp, SenderPc.Started] using hsent
      · simpa [SenderAct.copy, setOp, SenderPc.called, receivers_signals] using hdelivered
  · obtain ⟨hop, hsent, hdelivered⟩ := h.frame hi
    exact ⟨by rw [hsent, hop, hok.sent], by rw [hdelivered, hop, hok.delivered]⟩

/-! ### Independence -/

/-- The copies are independent: each that has started its RPC has sent the request, and each RPC
that has completed has signalled the receiver of its own copy, once. -/
def Independent (request : Request) (s : Senders ι Request ρ) : Prop :=
  (∀ i, s.sent i = if (s.op i).Started then [request] else []) ∧
    ∀ i, (s.delivered i).map Prod.fst = if (s.op i).Completed then [i] else []

/-- Each RPC whose factory has moved a completion has completed. -/
def Settled (s : Senders ι Request ρ) : Prop :=
  ∀ i c, (s.op i).found = some c → s.op i = .completed c

/-- A factory finds the completion that its own `start` has stored. -/
def Own (s : Senders ι Request ρ) : SenderAct ι Response → Prop
  | .move i => s.completion = some i
  | _ => True

end Senders

/-- The runs of the copies of a sender that `call` has made with the request. -/
def senderSystem {ι Request Response ρ : Type} [DecidableEq ι] (request : Request)
    (convert : Response → Except Exception ρ) (receiver : ι → Receiver ρ) :
    System (Senders ι Request ρ) (SenderAct ι Response) where
  Init s := s = .initial request
  step := Senders.step convert receiver

namespace Senders

variable {ι Request Response ρ : Type} [DecidableEq ι] {request : Request}
  {convert : Response → Except Exception ρ} {receiver : ι → Receiver ρ} {s : Senders ι Request ρ}

theorem copyOk (h : (senderSystem request convert receiver).Reachable s) :
    s.request = request ∧ ∀ i, CopyOk request s i := by
  refine h.invariant (I := fun s => s.request = request ∧ ∀ i, CopyOk request s i) ?_ ?_
  · rintro _ rfl
    exact ⟨rfl, fun _ => ⟨rfl, rfl⟩⟩
  · rintro s a s' _ ⟨rfl, hok⟩ _ hs
    have hstep := step_cases hs
    exact ⟨hstep.request, fun i => hstep.copyOk (hok i)⟩

/-- When factories find what their own `start` has stored, every completion is that of its copy. -/
theorem found_own (h : (senderSystem request convert receiver).ReachableUnder Own s) {i : ι}
    {c : Option ι} (hc : (s.op i).found = some c) : c = some i := by
  revert i c
  refine h.invariant (I := fun s => ∀ {i c}, (s.op i).found = some c → c = some i) ?_ ?_
  · rintro _ rfl i c hc
    cases hc
  · intro s a s' _ hfound hown hs i c hc
    rcases (step_cases hs).of_found hc with hbefore | ⟨rfl, rfl⟩
    · exact hfound hbefore
    · exact hown

/-- And only then. -/
theorem reachableUnder_own (h : (senderSystem request convert receiver).Reachable s)
    (hfound : ∀ i c, (s.op i).found = some c → c = some i) :
    (senderSystem request convert receiver).ReachableUnder Own s := by
  induction h with
  | init hi => exact .init hi
  | @step s s' a _ _ hs ih =>
    have hstep := step_cases hs
    refine (ih fun i c hc => hfound i c (hstep.found hc)).step ?_ hs
    cases a with
    | move i => exact hfound i _ hstep.found_move
    | _ => trivial

/-- **Independence of the copies.** The copies of a sender are independent in every run in which
each factory finds the completion that the `start` of its own copy has stored, and, once the RPCs
have completed, in no other run. -/
theorem independent_iff (h : (senderSystem request convert receiver).Reachable s) :
    ((senderSystem request convert receiver).ReachableUnder Own s → s.Independent request) ∧
      (s.Settled → s.Independent request →
        (senderSystem request convert receiver).ReachableUnder Own s) := by
  have hok := (copyOk h).2
  constructor
  · intro hown
    refine ⟨fun i => (hok i).sent, fun i => ?_⟩
    rw [(hok i).delivered]
    cases hpc : s.op i with
    | completed c =>
      obtain rfl := found_own hown (congrArg SenderPc.found hpc)
      rfl
    | idle | stored | refused | invoked | moved c | inflight c => rfl
  · rintro hsettled ⟨-, hdelivered⟩
    refine reachableUnder_own h fun i c hc => ?_
    have hpc := hsettled i c hc
    have hcalled := hdelivered i
    rw [(hok i).delivered, hpc] at hcalled
    exact Option.toList_eq_singleton_iff.mp hcalled

/-- Two copies of a sender of numbers, whose receivers do not throw. -/
abbrev twoCopies : System (Senders Bool Unit ℕ) (SenderAct Bool ℕ) :=
  senderSystem () .ok fun _ _ => none

/-- A copy that stores its completion before the other's factory has moved it out. -/
theorem exists_swapped_completion : ∃ s, twoCopies.Reachable s ∧ s.Settled ∧ ¬ s.Independent () ∧
    s.delivered false = [(true, .set_value 1)] ∧ s.delivered true = [] := by
  let acts : List (SenderAct Bool ℕ) := [.store false, .store true, .post false .Running,
    .post true .Running, .move false, .move true, .send false, .send true,
    .complete false true ⟨.OK, ""⟩ 1, .complete true true ⟨.OK, ""⟩ 2]
  let s := (twoCopies.exec (.initial ()) acts).get (by decide)
  have hreach : twoCopies.Reachable s := System.reachable_of_exec rfl (Option.some_get _).symm
  have hfalse : s.delivered false = [(true, .set_value 1)] := by decide
  have htrue : s.delivered true = [] := by decide
  refine ⟨s, hreach, ?_, ?_, hfalse, htrue⟩
  · intro i c hc
    have hop : ∀ i, s.op i = .completed (s.op i).called.head? := by decide
    rw [hop i] at hc ⊢
    exact congrArg _ (Option.some_inj.mp hc)
  · intro hindependent
    have hcompleted : (s.op true).Completed = true := by decide
    have hself := hindependent.2 true
    rw [htrue, hcompleted] at hself
    cases hself

/-- Two copies, each of whose factories is invoked before the other stores its completion. -/
theorem independent_sequential : ∃ s, twoCopies.ReachableUnder Own s ∧ s.Independent () ∧
    s.delivered false = [(false, .set_value 1)] ∧ s.delivered true = [(true, .set_value 2)] := by
  let acts : List (SenderAct Bool ℕ) := [.store false, .post false .Running, .move false,
    .store true, .post true .Running, .send false, .move true, .send true,
    .complete true true ⟨.OK, ""⟩ 2, .complete false true ⟨.OK, ""⟩ 1]
  let own (s : Senders Bool Unit ℕ) : SenderAct Bool ℕ → Bool
    | .move i => decide (s.completion = some i)
    | _ => true
  have htest : ∀ s a, own s a = true → Own s a := by
    intro s a ha
    cases a with
    | move i =>
      have hcompletion : s.completion = some i := of_decide_eq_true ha
      exact hcompletion
    | _ => trivial
  let s := (twoCopies.execWhile own (.initial ()) acts).get (by decide)
  have hown : twoCopies.ReachableUnder Own s :=
    System.ReachableUnder.execWhile htest (.init rfl) (Option.some_get _).symm
  exact ⟨s, hown, (independent_iff hown.reachable).1 hown, by decide, by decide⟩

end Senders

end Sgrpc
