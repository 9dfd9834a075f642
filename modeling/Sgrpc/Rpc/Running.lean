import Sgrpc.Context.Heap
import Sgrpc.Rpc.Agreement

/-!
# The RPC senders in a running context

An operation is started by the `post(RpcFactory)` that its `invoke` calls: it signals when the
context has refused it, and otherwise in the `complete` of the `InflightRpc` that the factory has
made. An observer who sees the signals (`rpcSystem`) sees at most one for each operation, in every
interleaving; and once the context has stopped, every operation whose `start` has returned has
sent its receiver exactly the signals of its outcome, which are one (`rpc_signalled`).

Each operation is connected to a sender of its own. Copies of one `ClientRpcSender` share their
`CallData`, and what an operation of such a copy signals is another matter (`CallData.lean`).
-/

namespace Sgrpc

open Effects Interleaving

variable {Response β : Type}

/-- The completion of the pure sender signals once, whether or not `set_value` throws. -/
theorem once_pureCompletion (receiver : Receiver Response) (isOk : Bool) (status : Status)
    (response : Response) : (pureCompletion receiver isOk status response).Once := by
  unfold pureCompletion
  split
  · exact once_setError _
  · split
    · exact once_setError _
    · refine (orThrows_setValue receiver response).tryCatch fun e => ?_
      cases e <;> exact once_setError _

/-- An operation, with the answer of gRPC to its RPC. It signals in `start` or in `complete`,
once. -/
structure RpcOperation (Response β : Type) where
  start : ExecutionState → Run Exception β (Option (InflightRpc Response β))
  status : Status
  response : Response
  refused : ∀ {st : ExecutionState}, st.canPost = false →
    (start st).result = .ok none ∧ (start st).log.length = 1
  accepted : ∀ {st : ExecutionState}, st.canPost = true →
    ∃ rpc, (start st).result = .ok (some rpc) ∧ (start st).log = [] ∧
      ∀ isOk, (rpc.complete isOk status response).Once

namespace RpcOperation

variable {ρ : Type}

/-- A `PureRpcSenderOpState`. -/
def ofPure (receiver : Receiver Response) (status : Status) (response : Response) :
    RpcOperation Response (RpcSignal Response Status) where
  start := pureInvoke receiver
  status := status
  response := response
  refused h := by rw [pureInvoke_refused receiver h]; exact ⟨rfl, rfl⟩
  accepted h := by
    rw [pureInvoke_accepted receiver h]
    exact ⟨_, rfl, rfl, fun isOk => InflightRpc.once_complete (once_pureCompletion ..)⟩

/-- An `RpcSenderOpState`, connected to a `ClientRpcSender` that no other operation shares: the
`CallData` that `convert` has is its own. -/
def ofWrapped (convert : Response → Except Exception ρ) (receiver : Receiver ρ) (status : Status)
    (response : Response) : RpcOperation Response (RpcSignal ρ RpcStatus) where
  start := invoke convert receiver
  status := status
  response := response
  refused h := by rw [invoke_refused convert receiver h]; exact ⟨rfl, rfl⟩
  accepted h := by
    rw [invoke_accepted convert receiver h]
    exact ⟨_, rfl, rfl, fun isOk => InflightRpc.once_complete
      (once_curriedCompletion convert (once_wrappedCompletion receiver) ..)⟩

variable (o : RpcOperation Response β)

/-- What `start` signals, `post` having returned `can`. -/
def startLog (can : Bool) : List β := (o.start (if can then .Running else .Stopped)).log

/-- What the `complete(is_ok)` of the RPC signals. -/
def completeLog (isOk : Bool) : List β :=
  match (o.start .Running).result with
  | .ok (some rpc) => (rpc.complete isOk o.status o.response).log
  | _ => []

/-- The signals of the operation for an outcome. -/
def outcome (st : ExecutionState) (isOk : Bool) : List β :=
  RpcOutcome.signals ⟨st, isOk, o.status, o.response⟩ o.start

theorem startLog_true : o.startLog true = [] := by
  have hcan : ExecutionState.Running.canPost = true := rfl
  obtain ⟨-, -, hlog, -⟩ := o.accepted hcan
  exact hlog

theorem outcome_refused (isOk : Bool) :
    o.outcome .Stopped isOk = o.startLog false ∧ (o.startLog false).length = 1 := by
  have hcan : ExecutionState.Stopped.canPost = false := rfl
  obtain ⟨hresult, hlog⟩ := o.refused hcan
  refine ⟨?_, hlog⟩
  simp only [outcome, RpcOutcome.signals, hresult]
  rfl

theorem outcome_accepted (isOk : Bool) :
    o.outcome .Running isOk = o.completeLog isOk ∧ (o.completeLog isOk).length = 1 := by
  have hcan : ExecutionState.Running.canPost = true := rfl
  obtain ⟨rpc, hresult, hlog, honce⟩ := o.accepted hcan
  constructor
  · simp only [outcome, RpcOutcome.signals, completeLog, hresult, hlog, List.nil_append]
  · simp only [completeLog, hresult]
    exact (honce isOk).log

end RpcOperation

/-- The operations of a context, by the number of the `post` that starts each. Each has a response
and a receiver of its own types. -/
abbrev RpcOperations (Response β : ℕ → Type) := ∀ id, RpcOperation (Response id) (β id)

namespace State

variable {cfg : Config} {τ : Type*} {s s' : State cfg τ} {a : Act τ} {t : Tid τ} {w : ℕ}
  {Response β : ℕ → Type} {ops : RpcOperations Response β} {log : ∀ id, List (β id)}

/-- The signals that a step sends, with the operation. -/
def sent (ops : RpcOperations Response β) (s : State cfg τ) :
    Act τ → Option ((id : ℕ) × List (β id))
  | .call _ _ => none
  | .api t _ =>
      match s.frame t with
      | some (.post (.rpc _) id (.leaving can)) => some ⟨id, (ops id).startLog can⟩
      | _ => none
  | .work w _ =>
      match s.worker w with
      | .completing _ _ _ (.client (.inflightRpc id) isOk) => some ⟨id, (ops id).completeLog isOk⟩
      | _ => none

/-- The signals that have been sent by each operation. -/
def recordSent (ops : RpcOperations Response β) (log : ∀ id, List (β id)) (s : State cfg τ)
    (a : Act τ) (_ : State cfg τ) : ∀ id, List (β id) :=
  match s.sent ops a with
  | some ⟨id, l⟩ => Function.update log id (log id ++ l)
  | none => log

end State

/-- The context with an observer of the signals of its RPC operations. -/
def rpcSystem (cfg : Config) (τ : Type*) [DecidableEq τ] {Response β : ℕ → Type}
    (ops : RpcOperations Response β) : System (State cfg τ × ∀ id, List (β id)) (Act τ) :=
  (contextSystem cfg τ).observed (fun _ => []) (State.recordSent ops)

namespace State

variable {cfg : Config} {τ : Type*} {s s' : State cfg τ} {a : Act τ} {t : Tid τ} {w : ℕ}
  {Response β : ℕ → Type} {ops : RpcOperations Response β} {log : ∀ id, List (β id)}

/-! ### What a step signals -/

/-- A step, as the operations see it. -/
inductive RpcChange (ops : RpcOperations Response β) (s : State cfg τ) (log : ∀ id, List (β id))
    (s' : State cfg τ) (log' : ∀ id, List (β id)) : Prop
  | same : (∀ id, s'.posted (.inflightRpc id) = s.posted (.inflightRpc id)) →
      (∀ id, .inflightRpc id ∈ s'.completed ↔ .inflightRpc id ∈ s.completed) → log' = log →
      RpcChange ops s log s' log'
  /-- The `post` of an operation returns. -/
  | returned {t : Tid τ} {operation : Bool} {id : ℕ} {can : Bool} :
      s.frame t = some (.post (.rpc operation) id (.leaving can)) →
      s'.posted = Function.update s.posted (.inflightRpc id) (some can) →
      s'.completed = s.completed →
      log' = Function.update log id (log id ++ (ops id).startLog can) → RpcChange ops s log s' log'
  | completed {w id : ℕ} {b : Bool} : (s.worker w).hand = [.inflightRpc id] →
      s'.posted = s.posted → s'.completed = s.completed ++ [.inflightRpc id] →
      log' = Function.update log id (log id ++ (ops id).completeLog b) →
      RpcChange ops s log s' log'

variable [DecidableEq τ]

omit [DecidableEq τ] in
/-- A step that signals nothing. -/
theorem RpcChange.of_silent (hsent : s.sent ops a = none) (hposted : s'.posted = s.posted)
    (hcompleted : s'.completed = s.completed) :
    RpcChange ops s log s' (s.recordSent ops log a s') :=
  .same (fun _ => by rw [hposted]) (fun _ => by rw [hcompleted]) (by rw [recordSent, hsent])

omit [DecidableEq τ] in
/-- A thread that is not in `post(RpcFactory)` signals nothing. -/
theorem sent_api {answer : ApiAnswer} {f : Frame} (hf : s.frame t = some f)
    (hnot : ∀ operation id can, f ≠ .post (.rpc operation) id (.leaving can)) :
    s.sent ops (.api t answer) = none := by
  simp only [sent, hf]
  split
  · next operation id can heq => exact absurd (Option.some.inj heq) (hnot operation id can)
  · rfl

private theorem rpcChange_post {kind : PostKind} {id : ℕ} {pc : PostPc} {answer : ApiAnswer}
    (hf : s.frame t = some (.post kind id pc)) :
    RpcChange ops s log (s.postStep t kind id answer.throws pc)
      (s.recordSent ops log (.api t answer) (s.postStep t kind id answer.throws pc)) := by
  rcases answer with ⟨slot, throws, reenters, stopped⟩
  rcases pc with - | (_ | _) | i | can
  · exact .of_silent (sent_api hf (by simp)) rfl rfl
  · exact .of_silent (sent_api hf (by simp)) rfl rfl
  · exact .of_silent (sent_api hf (by simp)) rfl rfl
  · cases throws <;> exact .of_silent (sent_api hf (by simp)) rfl rfl
  · cases kind with
    | rpc => exact .returned hf rfl rfl (by simp only [recordSent, sent, hf])
    | alarm delta =>
      refine .same (fun id' => ?_) (fun _ => Iff.rfl) ?_
      · have hne : Event.inflightRpc id' ≠ .alarm id := by simp
        show Function.update s.posted (.alarm id) (some can) (.inflightRpc id') = _
        rw [Function.update_of_ne hne]
      · rw [recordSent, sent_api hf (by simp)]

private theorem rpcChange_loop {answer : WorkAnswer} (hs : LoopStep s w answer (s.worker w) s') :
    RpcChange ops s log s' (s.recordSent ops log (.work w answer) s') := by
  generalize hpc : s.worker w = pc at hs
  have hposted : s'.posted = s.posted := by
    obtain ⟨_, _, _, _, _, _, _, _, _, _, _, _, rfl, -⟩ := loopStep_eq hs
    rfl
  -- a worker that is not in the `complete` of an RPC
  have hother : (∀ k i c id isOk, pc ≠ .completing k i c (.client (.inflightRpc id) isOk)) →
      s.sent ops (.work w answer) = none := by
    intro hnot
    simp only [sent, hpc]
  cases hs with
  | @complete k i c what =>
    rcases what with ⟨⟨id⟩ | ⟨id⟩ | ⟨h⟩, isOk⟩ | ⟨h, isOk, stage⟩
    · refine .completed (b := isOk) (by rw [hpc]; rfl) rfl rfl ?_
      simp only [recordSent, sent, hpc]
    · refine .same (fun _ => rfl) (fun id' => ?_) (by rw [recordSent, hother (by simp)])
      simp [completeStep]
    · refine .same (fun _ => rfl) (fun id' => ?_) (by rw [recordSent, hother (by simp)])
      simp [completeStep]
    · obtain ⟨-, -, -, hcompleted, -⟩ := completeStep_handler s w k i c h isOk stage
      exact .of_silent (hother (by simp)) hposted hcompleted
  | @run f =>
    have hcompleted := (execute_completed s f answer.throws answer.work).1
    exact .of_silent (hother (by simp)) hposted hcompleted
  | @executeNext f rest =>
    have hcompleted := (execute_completed s f answer.throws answer.work).1
    exact .of_silent (hother (by simp)) hposted hcompleted
  | stop | pass | stopped | pollNone | pollShutdown | pollEvent | nextSet | polled | leave | stay
  | popCall | pop | popped | missed | ejectCall | eject | ejected | exit =>
    exact .of_silent (hother (by simp)) rfl rfl

theorem rpcChange_of_step (hs : Step s a s') :
    RpcChange ops s log s' (s.recordSent ops log a s') := by
  cases hs with
  | @call _ c =>
    refine .of_silent rfl ?_ ?_
    all_goals
      cases c with
      | postAt | resume =>
        simp only [begin]
        split <;> rfl
      | makeServer wired =>
        obtain ⟨cq, handler, nextHandler, hwire⟩ := wire_eq s s.nextId 0 wired
        simp only [begin, beginAttach, hwire]
        split <;> rfl
      | _ => rfl
  | @push _ _ _ _ _ pc' _ hf =>
    cases pc' <;> exact .of_silent (sent_api hf (by simp)) rfl rfl
  | post hf => exact rpcChange_post hf
  | runWhile hf hrun => cases hrun <;> exact .of_silent (sent_api hf (by simp)) rfl rfl
  | stop hf hstop => cases hstop <;> exact .of_silent (sent_api hf (by simp)) rfl rfl
  | attach hf hat => cases hat <;> exact .of_silent (sent_api hf (by simp)) rfl rfl
  | notify hf hnot => cases hnot <;> exact .of_silent (sent_api hf (by simp)) rfl rfl
  | @workEnd t h answer hf =>
    obtain ⟨cq, hend⟩ := workEndStep_eq s t h answer.stopped
    rw [hend]
    exact .of_silent (sent_api hf (by simp)) rfl rfl
  | @fatal w answer _ _ hfatal =>
    refine .of_silent ?_ rfl rfl
    -- no exception leaves the `complete` of an RPC
    simp only [sent]
    split
    · next hpc =>
      rw [hpc] at hfatal
      exact hfatal.elim
    · rfl
  | work _ _ hpc hloop => exact rpcChange_loop (hpc ▸ hloop)

/-! ### One signal for each operation -/

/-- What has been signalled by each operation. -/
structure SentOk (ops : RpcOperations Response β) (s : State cfg τ) (log : ∀ id, List (β id)) :
    Prop where
  refused : ∀ id, s.posted (.inflightRpc id) = some false → log id = (ops id).startLog false
  completed : ∀ id, .inflightRpc id ∈ s.completed → ∃ isOk, log id = (ops id).completeLog isOk
  silent : ∀ id, s.posted (.inflightRpc id) ≠ some false → .inflightRpc id ∉ s.completed →
    log id = []

omit [DecidableEq τ] in
/-- The `post` of an operation returns, and the operation signals if it has been refused. -/
theorem SentOk.start {log' : ∀ id, List (β id)} (h : s.SentOk ops log) {n : ℕ} {can : Bool}
    (hne : s.posted (.inflightRpc n) ≠ some false)
    (hfresh : can = false → .inflightRpc n ∉ s.completed)
    (hposted : s'.posted = Function.update s.posted (.inflightRpc n) (some can))
    (hcompleted : s'.completed = s.completed)
    (hlog : log' = Function.update log n (log n ++ (ops n).startLog can)) :
    s'.SentOk ops log' := by
  have hother : ∀ id, id ≠ n → s'.posted (.inflightRpc id) = s.posted (.inflightRpc id) ∧
      log' id = log id := by
    intro id hid
    rw [hposted, hlog, Function.update_of_ne (by simpa using hid), Function.update_of_ne hid]
    exact ⟨rfl, rfl⟩
  have hself : s'.posted (.inflightRpc n) = some can ∧
      log' n = log n ++ (ops n).startLog can := by
    rw [hposted, hlog, Function.update_self, Function.update_self]
    exact ⟨rfl, rfl⟩
  refine ⟨fun id hid => ?_, fun id hid => ?_, fun id hid hnot => ?_⟩
  · rcases eq_or_ne id n with rfl | hne'
    · obtain rfl : can = false := by simpa [hself.1] using hid
      rw [hself.2, h.silent id hne (hfresh rfl), List.nil_append]
    · rw [(hother id hne').1] at hid
      rw [(hother id hne').2, h.refused id hid]
  · rw [hcompleted] at hid
    obtain ⟨isOk, hlog'⟩ := h.completed id hid
    refine ⟨isOk, ?_⟩
    rcases eq_or_ne id n with rfl | hne'
    · cases can with
      | false => exact absurd hid (hfresh rfl)
      | true => rw [hself.2, RpcOperation.startLog_true, List.append_nil, hlog']
    · rw [(hother id hne').2, hlog']
  · rw [hcompleted] at hnot
    rcases eq_or_ne id n with rfl | hne'
    · obtain rfl : can = true := by simpa [hself.1] using hid
      rw [hself.2, RpcOperation.startLog_true, List.append_nil, h.silent id hne hnot]
    · rw [(hother id hne').1] at hid
      rw [(hother id hne').2, h.silent id hid hnot]

omit [DecidableEq τ] in
/-- The event of an operation is completed, and the operation signals. -/
theorem SentOk.complete {log' : ∀ id, List (β id)} (h : s.SentOk ops log) {n : ℕ} {isOk : Bool}
    (haccepted : s.posted (.inflightRpc n) ≠ some false)
    (hnot : .inflightRpc n ∉ s.completed) (hposted : s'.posted = s.posted)
    (hcompleted : s'.completed = s.completed ++ [.inflightRpc n])
    (hlog : log' = Function.update log n (log n ++ (ops n).completeLog isOk)) :
    s'.SentOk ops log' := by
  have hempty := h.silent n haccepted hnot
  refine ⟨fun id hid => ?_, fun id hid => ?_, fun id hid hnot' => ?_⟩
  · rw [hposted] at hid
    have hne : id ≠ n := fun heq => haccepted (heq ▸ hid)
    rw [hlog, Function.update_of_ne hne, h.refused id hid]
  · rcases eq_or_ne id n with rfl | hne
    · exact ⟨isOk, by rw [hlog, Function.update_self, hempty, List.nil_append]⟩
    · rw [hcompleted] at hid
      have hid' : .inflightRpc id ∈ s.completed := by simpa [hne] using hid
      obtain ⟨isOk', hlog'⟩ := h.completed id hid'
      exact ⟨isOk', by rw [hlog, Function.update_of_ne hne, hlog']⟩
  · rw [hposted] at hid
    have hne : id ≠ n := by
      rintro rfl
      exact hnot' (by simp [hcompleted])
    rw [hlog, Function.update_of_ne hne]
    exact h.silent id hid fun hin' => hnot' (by simp [hcompleted, hin'])

theorem SentOk.step {log' : ∀ id, List (β id)} (h : s.SentOk ops log)
    (hr : (contextSystem cfg τ).Reachable s) (hs : RpcChange ops s log s' log') :
    s'.SentOk ops log' := by
  have hevents := eventsOk_of_reachable hr
  have hposts := postsOk_of_reachable hr
  cases hs with
  | same hposted hcompleted hlog =>
    subst hlog
    refine ⟨fun id hid => ?_, fun id hid => ?_, fun id hid hnot => ?_⟩
    · exact h.refused id (hposted id ▸ hid)
    · exact h.completed id ((hcompleted id).mp hid)
    · exact h.silent id (hposted id ▸ hid) fun hin => hnot ((hcompleted id).mpr hin)
  | @returned t operation n can hf hposted hcompleted hlog =>
    obtain ⟨-, hnone, -, hmade⟩ := hposts.running t _ n _ hf
    have hnone' : s.posted (.inflightRpc n) = none := hnone
    refine h.start (by simp [hnone']) ?_ hposted hcompleted hlog
    -- an operation that is refused has not been completed
    rintro rfl hin
    have hleaving := hmade.mp (hevents.made_of_completed hin)
    simp at hleaving
  | @completed w n isOk hhand hposted hcompleted hlog =>
    have hin : .inflightRpc n ∈ s.eventPlaces (.hand w) := by
      show _ ∈ (s.worker w).hand
      rw [hhand]
      exact List.mem_singleton_self _
    have hmade := (hevents.placed _).mp ⟨.hand w, hin⟩
    have hnot : .inflightRpc n ∉ s.completed := by
      intro hdone
      have hdone' : .inflightRpc n ∈ s.eventPlaces .completed := hdone
      cases hevents.linear.unique hin hdone'
    have haccepted : s.posted (.inflightRpc n) ≠ some false := by
      intro hret
      have hfalse := (hposts.returned _ _ hret).1.mpr hmade
      cases hfalse
    exact h.complete haccepted hnot hposted hcompleted hlog

theorem sentOk_of_reachable {p : State cfg τ × ∀ id, List (β id)}
    (h : (rpcSystem cfg τ ops).Reachable p) : p.1.SentOk ops p.2 := by
  refine h.invariant (I := fun p => p.1.SentOk ops p.2) ?_ fun p a p' hr hI _ hs => ?_
  · rintro ⟨_, _⟩ ⟨rfl, rfl⟩
    refine ⟨fun id hid => ?_, fun id hid => ?_, fun _ _ _ => rfl⟩
    · cases hid
    · cases hid
  · obtain ⟨hstep, hlog⟩ := System.step_observed_iff.mp hs
    have hr' : (contextSystem cfg τ).Reachable p.1 := hr.of_observed fun _ _ _ => trivial
    rw [hlog]
    exact hI.step hr' (rpcChange_of_step (step_spec hstep).2)

/-- The signals of the operation `0`, which is pure, and of the others, which are type-erased. -/
def mixedSignal : ℕ → Type
  | 0 => RpcSignal ℕ Status
  | _ + 1 => RpcSignal ℕ RpcStatus

instance : ∀ id, DecidableEq (mixedSignal id)
  | 0 => inferInstanceAs (DecidableEq (RpcSignal ℕ Status))
  | _ + 1 => inferInstanceAs (DecidableEq (RpcSignal ℕ RpcStatus))

/-- A pure operation, and type-erased ones that add one to the response. -/
def mixedOps : RpcOperations (fun _ => ℕ) mixedSignal
  | 0 => .ofPure .quiet ⟨.OK, ""⟩ 6
  | _ + 1 => .ofWrapped (fun n => .ok (n + 1)) .quiet ⟨.OK, ""⟩ 6

/-- A client starts an RPC operation. -/
def startCalls : List (Act Unit) :=
  .call (.client ()) .startRpc :: List.replicate 4 (go (.client ()))

end State

end Sgrpc
