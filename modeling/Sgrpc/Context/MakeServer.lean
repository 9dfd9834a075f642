import Sgrpc.Context.Completion
import Sgrpc.Context.ServerQueue

/-!
# Making a server

`GenericServerContainer::make` wires every work queue of its new container before `attach_server`
says whether the context still takes it. Nobody else knows the container until then, so what
`wire_rpcs` has armed stays on the queues as it is (`Leaves`); a `make` that `attach_server`
refuses leaves it there. So `make` is all-or-nothing exactly when it throws before it wires
anything, or when the context is `Ready` at the check of `attach_server` (`make_iff`).
-/

namespace Sgrpc

open Interleaving

namespace State

variable {cfg : Config} {τ : Type*} {s s' s'' : State cfg τ} {a : Act τ} {t : Tid τ} {w : ℕ}

/-! ### Wiring -/

/-- The events pending in the queue are those of the handlers that one call of `wire_rpcs` makes
on it, from handler `first` on: one for each of them, in this order. -/
def WiredOnce (s : State cfg τ) (q : QueueId) (wired : List Bool) (first : ℕ) : Prop :=
  (s.cq q).pending = (List.range wired.length).map (fun i => .handler (first + i)) ∧
    ∀ i b, wired[i]? = some b → s.handler (first + i) = ⟨q, b, false⟩

/-- What one call of `wire_rpcs` does. -/
structure Wires (s u : State cfg τ) (q : QueueId) (wired : List Bool) : Prop where
  nextHandler : u.nextHandler = s.nextHandler + wired.length
  pending : (u.cq q).pending = (s.cq q).pending ++
    (List.range wired.length).map (fun i => .handler (s.nextHandler + i))
  other : ∀ q' ≠ q, u.cq q' = s.cq q'
  old : ∀ h < s.nextHandler, u.handler h = s.handler h
  new : ∀ i b, wired[i]? = some b → u.handler (s.nextHandler + i) = ⟨q, b, false⟩

theorem wires_wireRpcs (q : QueueId) (wired : List Bool) :
    ∀ s : State cfg τ, Wires s (s.wireRpcs q wired) q wired := by
  induction wired with
  | nil => exact fun s => ⟨rfl, (List.append_nil _).symm, fun _ _ => rfl, fun _ _ => rfl, by simp⟩
  | cons immediate rest ih =>
    intro s
    obtain ⟨hnext, hpending, hother, hold, hnew⟩ := ih (s.arm q immediate)
    have harmed : (s.arm q immediate).handler s.nextHandler = ⟨q, immediate, false⟩ :=
      Function.update_self _ _ _
    have harmPending : ((s.arm q immediate).cq q).pending =
        (s.cq q).pending ++ [.handler s.nextHandler] := by
      show (Function.update s.cq q ((s.cq q).start (.handler s.nextHandler)) q).pending = _
      rw [Function.update_self]
      rfl
    have harmNext : (s.arm q immediate).nextHandler = s.nextHandler + 1 := rfl
    rw [harmNext] at hnext hold hnew hpending
    refine ⟨?_, ?_, fun q' hq' => ?_, fun h hh => ?_, fun i b hi => ?_⟩
    · rw [List.length_cons, Nat.add_comm rest.length, ← Nat.add_assoc]
      exact hnext
    · rw [harmPending] at hpending
      refine hpending.trans ?_
      rw [List.length_cons, List.range_succ_eq_map, List.map_cons, List.map_map,
        List.append_assoc, List.singleton_append]
      refine congrArg _ (congrArg _ (List.map_congr_left fun i _ => ?_))
      rw [Function.comp_apply, Nat.succ_eq_add_one, Nat.add_right_comm, Nat.add_assoc]
    · exact (hother q' hq').trans (Function.update_of_ne hq' _ _)
    · exact (hold h (by omega)).trans (Function.update_of_ne (by omega) _ _)
    · cases i with
      | zero =>
        obtain rfl : immediate = b := by simpa using hi
        exact (hold s.nextHandler (Nat.lt_succ_self _)).trans harmed
      | succ i =>
        have hnext' := hnew i b (by simpa using hi)
        rwa [Nat.add_right_comm] at hnext'

/-- What `init` does to the queues of its container, from queue `j` on. -/
structure WiresAll (s u : State cfg τ) (id j : ℕ) (wired : List (List Bool)) : Prop where
  nextHandler : s.nextHandler ≤ u.nextHandler
  other : ∀ q, (∀ k, q ≠ .server id (j + k)) → u.cq q = s.cq q
  old : ∀ h < s.nextHandler, u.handler h = s.handler h
  fresh : ∀ h, s.nextHandler ≤ h → h < u.nextHandler → ∃ k, (u.handler h).cq = .server id k
  once : ∀ k l, wired[k]? = some l → (s.cq (.server id (j + k))).pending = [] →
    ∃ first, s.nextHandler ≤ first ∧ first + l.length ≤ u.nextHandler ∧
      u.WiredOnce (.server id (j + k)) l first

theorem wiresAll_wire (id : ℕ) (wired : List (List Bool)) :
    ∀ (s : State cfg τ) (j : ℕ), WiresAll s (s.wire id j wired) id j wired := by
  induction wired with
  | nil =>
    refine fun s j => ⟨le_rfl, fun _ _ => rfl, fun _ _ => rfl, fun h hle hlt => ?_, by simp⟩
    exact absurd hlt (not_lt.mpr hle)
  | cons w rest ih =>
    intro s j
    have hfirst := wires_wireRpcs (.server id j) w s
    have hrest := ih (s.wireRpcs (.server id j) w) (j + 1)
    have hle := hrest.nextHandler
    rw [hfirst.nextHandler] at hle
    have hne : ∀ k, QueueId.server id j ≠ .server id (j + 1 + k) := by
      intro k heq
      have hj : j = j + 1 + k := (QueueId.server.inj heq).2
      omega
    -- the handlers made on queue `j` are not touched by the rest of the loop
    have hkept : ∀ i b, w[i]? = some b →
        (s.wire id j (w :: rest)).handler (s.nextHandler + i) = ⟨.server id j, b, false⟩ := by
      intro i b hi
      have hlt : i < w.length := (List.getElem?_eq_some_iff.mp hi).1
      exact (hrest.old _ (by rw [hfirst.nextHandler]; omega)).trans (hfirst.new i b hi)
    refine ⟨by exact (Nat.le_add_right _ _).trans hle, fun q hq => ?_, fun h hh => ?_,
      fun h hh hlt => ?_, fun k l hk hempty => ?_⟩
    · have hshift : ∀ k, q ≠ .server id (j + 1 + k) := fun k => by
        rw [Nat.add_assoc, Nat.add_comm 1]
        exact hq (k + 1)
      exact (hrest.other q hshift).trans (hfirst.other q (hq 0))
    · exact (hrest.old h (by rw [hfirst.nextHandler]; omega)).trans (hfirst.old h hh)
    · rcases lt_or_ge h (s.nextHandler + w.length) with hin | hout
      · obtain ⟨i, rfl⟩ := Nat.exists_eq_add_of_le hh
        have hi : i < w.length := by omega
        exact ⟨j, by rw [hkept i _ (List.getElem?_eq_getElem hi)]⟩
      · exact hrest.fresh h (by rw [hfirst.nextHandler]; exact hout) hlt
    · cases k with
      | zero =>
        obtain rfl : w = l := by simpa using hk
        refine ⟨s.nextHandler, le_rfl, hle, ?_, hkept⟩
        have hpending := hfirst.pending
        rw [Nat.add_zero] at hempty
        rw [hempty, List.nil_append] at hpending
        exact (congrArg CompletionQueue.pending (hrest.other _ hne)).trans hpending
      | succ k =>
        have hshift : j + (k + 1) = j + 1 + k := by omega
        rw [hshift] at hempty ⊢
        obtain ⟨first, hge, hle', honce⟩ := hrest.once k l (by simpa using hk) (by
          rw [hfirst.other _ (hne k).symm]
          exact hempty)
        rw [hfirst.nextHandler] at hge
        exact ⟨first, by omega, hle', honce⟩

/-! ### What a step does to handlers and the queues of servers -/

/-- What the handlers and the queues of servers are is the same in both states. -/
structure SameServers (s s' : State cfg τ) : Prop where
  cq : ∀ id j, s'.cq (.server id j) = s.cq (.server id j)
  handler : s'.handler = s.handler
  nextHandler : s'.nextHandler = s.nextHandler

/-- The step shuts the queue down, or polls it. -/
def Reaches (s : State cfg τ) (a : Act τ) (q : QueueId) : Prop :=
  s.Halts a q ∨ ∃ w answer k i c, a = .work w answer ∧ w < s.created ∧
    s.worker w = .polling k i c ∧ q = s.queueAt k (nextCqIndex w i (s.setSize k))

/-- The steps, as handlers and the queues of servers see them. -/
inductive ServerStep (s : State cfg τ) (a : Act τ) (s' : State cfg τ) : Prop
  | same : SameServers s s' → ServerStep s a s'
  /-- A new container is wired. -/
  | make {wired : List (List Bool)} : WiresAll s s' s.nextId 0 wired →
      s'.nextId = s.nextId + 1 → ServerStep s a s'
  /-- A handler that is being served starts an operation on its queue. -/
  | start {h : ℕ} : s.Serving h →
      s'.cq = Function.update s.cq (s.handler h).cq ((s.cq (s.handler h).cq).start (.handler h)) →
      s'.handler = s.handler → s'.nextHandler = s.nextHandler → ServerStep s a s'
  /-- A handler that has been handed a request makes its successor. -/
  | arm {h : ℕ} {hd : Handler} : s.Serving h →
      s'.cq = (s.arm (s.handler h).cq (s.handler h).immediate).cq →
      s'.handler = Function.update (s.arm (s.handler h).cq (s.handler h).immediate).handler h hd →
      hd.cq = (s.handler h).cq → s'.nextHandler = s.nextHandler + 1 → ServerStep s a s'
  | reach {q : QueueId} {cq : CompletionQueue} : s.Reaches a q →
      s'.cq = Function.update s.cq q cq → s'.handler = s.handler →
      s'.nextHandler = s.nextHandler → ServerStep s a s'

theorem ServerStep.of_eq (hcq : s'.cq = s.cq) (hhandler : s'.handler = s.handler)
    (hnext : s'.nextHandler = s.nextHandler) : ServerStep s a s' :=
  .same ⟨fun _ _ => by rw [hcq], hhandler, hnext⟩

variable [DecidableEq τ]

private theorem serverStep_begin {c : Call} : ServerStep s a (s.begin t c) := by
  cases c with
  | postAt | resume =>
    simp only [begin]
    split <;> exact .of_eq rfl rfl rfl
  | makeServer wired =>
    simp only [begin, beginAttach]
    split
    · exact .of_eq rfl rfl rfl
    · obtain ⟨hnext, hother, hold, hfresh, honce⟩ := wiresAll_wire s.nextId wired s 0
      exact .make ⟨hnext, hother, hold, hfresh, honce⟩ rfl
  | _ => exact .of_eq rfl rfl rfl

private theorem serverStep_complete {k i : ℕ} {c : PassCounts} {what : Completion}
    (hpc : s.worker w = .completing k i c what) :
    ServerStep s a (s.completeStep w k i c what) := by
  rcases what with ⟨⟨id⟩ | ⟨id⟩ | ⟨h⟩, isOk⟩ | ⟨h, isOk, _ | _ | _⟩
  · exact .of_eq rfl rfl rfl
  · exact .of_eq rfl rfl rfl
  · exact .of_eq rfl rfl rfl
  · simp only [completeStep]
    split
    · exact .of_eq rfl rfl rfl
    · next hgo =>
      obtain ⟨hdel, rfl⟩ : (s.handler h).deleteOnNextComplete = false ∧ isOk = true := by
        simpa using hgo
      refine .arm (.entered hpc hdel) rfl rfl ?_ rfl
      show (Function.update s.handler s.nextHandler ⟨(s.handler h).cq, _, false⟩ h).cq = _
      rcases eq_or_ne h s.nextHandler with rfl | hne
      · rw [Function.update_self]
      · rw [Function.update_of_ne hne]
  · simp only [completeStep]
    split
    · exact .start (.armed hpc) rfl rfl rfl
    · exact .of_eq rfl rfl rfl
  · exact .of_eq rfl rfl rfl

omit [DecidableEq τ] in
private theorem serverStep_execute {f : Thunk} {throws : Bool} {work : WorkEnd} {pc : WorkerPc}
    (hf : f ∈ (s.worker w).thunks) :
    ServerStep s a ((s.execute f throws work).setWorker w pc) := by
  rcases f with ⟨id, _ | _ | h⟩
  · exact .of_eq rfl rfl rfl
  · exact .of_eq rfl rfl rfl
  · have hout : s.Outstanding ⟨id, .finish h⟩ := Or.inr ⟨.hand w, by simp, hf⟩
    cases work with
    | finished => exact .start (.detached hout) rfl rfl rfl
    | stopped | suspended => exact .of_eq rfl rfl rfl

private theorem serverStep_loop {pc : WorkerPc} {answer : WorkAnswer} (hw : w < s.created)
    (hpc : s.worker w = pc) (h : LoopStep s w answer pc s') :
    ServerStep s (.work w answer) s' := by
  cases h with
  | pollEvent _ _ hq _ _ =>
    exact .reach (Or.inr ⟨w, answer, _, _, _, rfl, hw, hpc, hq⟩) rfl rfl rfl
  | complete => exact serverStep_complete hpc
  | @run f => exact serverStep_execute (w := w) (by simp [hpc, WorkerPc.thunks])
  | @executeNext f rest => exact serverStep_execute (w := w) (by simp [hpc, WorkerPc.thunks])
  | stop | pass | stopped | pollNone | pollShutdown | nextSet | polled | leave | stay | popCall
  | pop | popped | missed | ejectCall | eject | ejected | exit => exact .of_eq rfl rfl rfl

theorem serverStep_of_step (h : Step s a s') : ServerStep s a s' := by
  cases h with
  | call => exact serverStep_begin
  | @push _ _ _ _ _ pc' => cases pc' <;> exact .of_eq rfl rfl rfl
  | @post t kind id pc answer hf =>
    rcases answer with ⟨slot, throws, reenters⟩
    rcases pc with - | (_ | _) | i | can
    · exact .of_eq rfl rfl rfl
    · exact .of_eq rfl rfl rfl
    · exact .of_eq rfl rfl rfl
    · cases throws with
      | false =>
        refine .same ⟨fun id' j => ?_, rfl, rfl⟩
        show Function.update s.cq (.own i) ((s.cq (.own i)).start (kind.event id))
          (.server id' j) = _
        exact Function.update_of_ne (by simp) _ _
      | true => exact .of_eq rfl rfl rfl
    · exact .of_eq rfl rfl rfl
  | runWhile _ hrun => cases hrun <;> exact .of_eq rfl rfl rfl
  | @stop t _ answer _ hf hstop =>
    cases hstop with
    | @halt k q hq => exact .reach (Or.inl ⟨t, answer, k, rfl, hf, hq⟩) rfl rfl rfl
    | _ => exact .of_eq rfl rfl rfl
  | attach _ hat => cases hat <;> exact .of_eq rfl rfl rfl
  | notify _ hnot => cases hnot <;> exact .of_eq rfl rfl rfl
  | @workEnd t h answer hf =>
    simp only [workEndStep]
    split
    · exact .of_eq rfl rfl rfl
    · exact .start (.resumed hf) rfl rfl rfl
  | fatal => exact .of_eq rfl rfl rfl
  | work hw _ hpc hloop => exact serverStep_loop hw hpc hloop

/-! ### New containers -/

/-- The handlers that have been made live on queues of known containers. -/
theorem lt_of_handler (h : (contextSystem cfg τ).Reachable s) {n id j : ℕ}
    (hn : n < s.nextHandler) (hcq : (s.handler n).cq = .server id j) : id < s.nextId := by
  have hinv : ∀ n < s.nextHandler, ∀ id j, (s.handler n).cq = .server id j → id < s.nextId := by
    refine h.invariant (I := fun u => ∀ n < u.nextHandler, ∀ id j,
      (u.handler n).cq = .server id j → id < u.nextId) ?_ fun u a u' hr hI _ hs n hn id j hcq => ?_
    · rintro _ rfl _ hn
      exact absurd hn (Nat.not_lt_zero _)
    · have hstep := (step_spec hs).2
      have hid := nextId_of_step hstep
      cases serverStep_of_step hstep with
      | same hsame =>
        rw [hsame.nextHandler] at hn
        rw [hsame.handler] at hcq
        exact (hI n hn id j hcq).trans_le hid
      | make hwire hnext =>
        rcases lt_or_ge n u.nextHandler with hold | hnew
        · rw [hwire.old n hold] at hcq
          exact (hI n hold id j hcq).trans_le hid
        · obtain ⟨k, hk⟩ := hwire.fresh n hnew hn
          rw [hcq] at hk
          obtain ⟨rfl, rfl⟩ := QueueId.server.inj hk
          omega
      | start _ _ hhandler hnextHandler | reach _ _ hhandler hnextHandler =>
        rw [hnextHandler] at hn
        rw [hhandler] at hcq
        exact (hI n hn id j hcq).trans_le hid
      | @arm n₀ hd hserving _ hhandler hhd hnextHandler =>
        have hlt := (serversOk_of_reachable hr).lt hserving
        rw [hhandler] at hcq
        rcases eq_or_ne n n₀ with rfl | hne
        · rw [Function.update_self, hhd] at hcq
          exact (hI n hlt id j hcq).trans_le hid
        · rw [Function.update_of_ne hne] at hcq
          have harm : (Function.update u.handler u.nextHandler
            ⟨(u.handler n₀).cq, (u.handler n₀).immediate, false⟩ n).cq = .server id j := hcq
          rcases eq_or_ne n u.nextHandler with rfl | hne'
          · rw [Function.update_self] at harm
            exact (hI n₀ hlt id j harm).trans_le hid
          · rw [Function.update_of_ne hne'] at harm
            exact (hI n (by omega) id j harm).trans_le hid
  exact hinv n hn id j hcq

/-- Nothing is pending on the queues of a container that does not exist yet. -/
theorem pending_of_new (h : (contextSystem cfg τ).Reachable s) (j : ℕ) :
    (s.cq (.server s.nextId j)).pending = [] := by
  refine List.eq_nil_iff_forall_not_mem.mpr fun e he => ?_
  obtain ⟨n, rfl⟩ := (pendingOk_of_reachable h).server _ _ e he
  obtain ⟨hcq, hn⟩ := (serversOk_of_reachable h).pending _ n he
  exact absurd (lt_of_handler h hn hcq) (Nat.lt_irrefl _)

/-! ### A container that nobody knows -/

/-- No handler on a queue of the container is being served. -/
def Unserved (s : State cfg τ) (id : ℕ) : Prop :=
  ∀ n, s.Serving n → ∀ j, (s.handler n).cq ≠ .server id j

/-- The queues of the container, and the handlers on them, are the same in both states. -/
structure Leaves (s s' : State cfg τ) (id : ℕ) : Prop where
  nextHandler : s.nextHandler ≤ s'.nextHandler
  cq : ∀ j, s'.cq (.server id j) = s.cq (.server id j)
  handler : ∀ n < s.nextHandler, ∀ j, (s.handler n).cq = .server id j →
    s'.handler n = s.handler n

omit [DecidableEq τ] in
theorem Leaves.refl (s : State cfg τ) (id : ℕ) : Leaves s s id :=
  ⟨le_rfl, fun _ => rfl, fun _ _ _ _ => rfl⟩

omit [DecidableEq τ] in
theorem Leaves.trans {id : ℕ} (h : Leaves s s' id) (h' : Leaves s' s'' id) : Leaves s s'' id where
  nextHandler := h.nextHandler.trans h'.nextHandler
  cq j := (h'.cq j).trans (h.cq j)
  handler n hn j hcq := by
    have hsame := h.handler n hn j hcq
    rw [← hsame]
    exact h'.handler n (hn.trans_le h.nextHandler) j (hsame ▸ hcq)

omit [DecidableEq τ] in
theorem Leaves.wiredOnce {id j first : ℕ} {wired : List Bool} (h : Leaves s s' id)
    (hle : first + wired.length ≤ s.nextHandler)
    (honce : s.WiredOnce (.server id j) wired first) :
    s'.WiredOnce (.server id j) wired first := by
  refine ⟨by rw [h.cq j]; exact honce.1, fun i b hi => ?_⟩
  have hlt : i < wired.length := (List.getElem?_eq_some_iff.mp hi).1
  have hhandler := honce.2 i b hi
  rw [h.handler _ (by omega) j (by rw [hhandler]), hhandler]

/-- A container cannot be reached before it is attached, nor while the context is `Ready`. -/
def Hidden (s : State cfg τ) (id : ℕ) : Prop :=
  (∀ server ∈ s.servers, server.id ≠ id) ∨ s.state = .Ready

theorem Hidden.not_reaches (h : (contextSystem cfg τ).Reachable s) {id : ℕ} (hhidden : s.Hidden id)
    (j : ℕ) : ¬ s.Reaches a (.server id j) := by
  rintro (⟨t, answer, k, -, hf, hq⟩ | ⟨w, answer, k, i, c, -, hw, hpc, hq⟩)
  · rcases hhidden with hout | hready
    · rcases mem_allQueues (List.mem_of_getElem? hq) with ⟨i, heq⟩ | ⟨server, hmem, j', heq⟩
      · cases heq
      · exact hout server hmem (QueueId.server.inj heq).1.symm
    · have hdown := (stopOk_of_reachable h).draining t _ hf trivial
      rw [hready] at hdown
      cases hdown
  · rcases hhidden with hout | hready
    · have hpass : s.PassOk w (.polling k i c) := hpc ▸ passOk_of_reachable h w
      have hle := hpass.set_le
      cases k with
      | zero => cases hq
      | succ k =>
        have hlt : k < s.servers.length := hle
        rw [queueAt, List.getD_eq_getElem _ _ hlt] at hq
        exact hout _ (List.getElem_mem hlt) (QueueId.server.inj hq).1.symm
    · have hzero := ((runOk_of_reachable h).ready hready).1
      omega

/-- Nobody else touches a container that is hidden. -/
theorem Hidden.leaves (h : (contextSystem cfg τ).Reachable s) {id : ℕ} (hhidden : s.Hidden id)
    (hid : id < s.nextId) (hun : s.Unserved id) (hs : Step s a s') : Leaves s s' id := by
  cases serverStep_of_step hs with
  | same hsame =>
    exact ⟨hsame.nextHandler.ge, fun j => hsame.cq id j, fun n _ _ _ => by rw [hsame.handler]⟩
  | make hwire =>
    refine ⟨hwire.nextHandler, fun j => hwire.other _ fun k heq => ?_, fun n hn _ _ =>
      hwire.old n hn⟩
    have hnew := (QueueId.server.inj heq).1
    omega
  | start hserving hcq hhandler hnext =>
    refine ⟨hnext.ge, fun j => ?_, fun n _ _ _ => by rw [hhandler]⟩
    rw [hcq, Function.update_of_ne (hun _ hserving j).symm]
  | @arm n₀ hd hserving hcq hhandler hhd hnext =>
    refine ⟨by omega, fun j => ?_, fun n hn j hq => ?_⟩
    · rw [hcq]
      exact Function.update_of_ne (hun n₀ hserving j).symm _ _
    · have hne : n ≠ n₀ := by
        rintro rfl
        exact hun n hserving j hq
      rw [hhandler, Function.update_of_ne hne]
      exact Function.update_of_ne hn.ne _ _
  | @reach q cq hreaches hcq hhandler hnext =>
    refine ⟨hnext.ge, fun j => ?_, fun n _ _ _ => by rw [hhandler]⟩
    have hne : .server id j ≠ q := by
      rintro rfl
      exact hhidden.not_reaches h j hreaches
    rw [hcq, Function.update_of_ne hne]

theorem Hidden.unserved (h : (contextSystem cfg τ).Reachable s) {id : ℕ} (hhidden : s.Hidden id)
    (hun : s.Unserved id) (hs : Step s a s') : s'.Unserved id := by
  intro n hn j
  have hservers := serversOk_of_reachable h
  have hkeep : n < s.nextHandler → (s'.handler n).cq = (s.handler n).cq :=
    fun hlt => ((serveStep_of_step hs).handler n hlt).1
  rcases serving_of_step hservers (pushesOk_of_reachable h) (clean_of_reachable h) hs hn with
    hold | ⟨q, w, answer, k, i, c, m, rfl, hpc, hq, -, he, -⟩
  · rw [hkeep (hservers.lt hold)]
    exact hun n hold j
  · obtain ⟨hcq, hlt⟩ := hservers.pending q n (List.mem_of_getElem? he)
    rw [hkeep hlt, hcq]
    rintro rfl
    have hw : w < s.created := by
      cases hs with
      | work hw | fatal hw => exact hw
    exact hhidden.not_reaches h j (Or.inr ⟨w, answer, k, i, c, rfl, hw, hpc, hq⟩)

/-! ### Inside `make` -/

/-- A thread in `attach_server` was there before, or has just called `make`. -/
theorem attach_before (hs : Step s a s') {server : ServerContainer} {pc' : AttachPc}
    (hf : s'.frame t = some (.attach server pc')) :
    (∃ pc, s.frame t = some (.attach server pc)) ∨ (server.id = s.nextId ∧ pc' = .locking) := by
  cases attachChange_of_step hs with
  | same hsame => exact Or.inl ⟨pc', (hsame.attach t server pc').mp hf⟩
  | @call u n _ hframe =>
    rw [hframe, update_frame_iff] at hf
    rcases hf with ⟨rfl, heq⟩ | ⟨-, hold⟩
    · cases heq
      exact Or.inr ⟨rfl, rfl⟩
    · exact Or.inl ⟨pc', hold⟩
  | @attach u server' pc hg hat =>
    have hmove : ∀ {f}, s'.frame = Function.update s.frame u f →
        (∀ server₁ pc₁, f = some (.attach server₁ pc₁) → server₁ = server') →
        ∃ pc, s.frame t = some (.attach server pc) := by
      intro f hframe hsame
      rw [hframe, update_frame_iff] at hf
      rcases hf with ⟨rfl, heq⟩ | ⟨-, hold⟩
      · obtain rfl := hsame server pc' heq
        exact ⟨pc, hg⟩
      · exact ⟨pc', hold⟩
    left
    cases hat with
    | lock | accept | refuse | push => exact hmove rfl fun _ _ heq => by cases heq; rfl
    | unlock | throw => exact hmove rfl fun _ _ heq => by cases heq

/-- The context is `Ready` until the call that has appended its container unlocks `padlock_`. -/
theorem ready_of_unlocking (h : (contextSystem cfg τ).Reachable s) {server : ServerContainer}
    (hf : s.frame t = some (.attach server (.unlocking true))) : s.state = .Ready := by
  have hinv : ∀ t server, s.frame t = some (.attach server (.unlocking true)) →
      s.state = .Ready := by
    refine h.invariant (I := fun u => ∀ t server,
      u.frame t = some (.attach server (.unlocking true)) → u.state = .Ready) ?_
      fun u a u' hr hI _ hs t server hf => ?_
    · rintro _ rfl _ _ hf
      cases hf
    · have hstep := (step_spec hs).2
      rcases eq_or_ne t a.thread with rfl | hne
      · rcases attach_before hstep hf with ⟨pc, hpc⟩ | ⟨-, heq⟩
        · have hat := attachStep_of_step hstep hpc
          generalize a.thread = t at *
          cases hat with
          | push => exact (attachOk_of_reachable hr).ready t server hpc
          | lock | accept | refuse | unlock | throw => simp [setFrame] at hf
        · cases heq
      · have hold := (frame_of_step hstep hne).symm.trans hf
        exact ready_of_step hr hstep hold trivial (hI t server hold)
  exact hinv t server hf

/-- In a run from `s₁`, in which the call of the thread has wired its container: as long as the
thread is in `attach_server`, the container is as it was wired. -/
structure Wired (s₁ u : State cfg τ) (t : Tid τ) (server : ServerContainer) : Prop where
  lt : server.id < u.nextId
  leaves : ∀ pc, u.frame t = some (.attach server pc) →
    Leaves s₁ u server.id ∧ u.Unserved server.id

theorem Wired.step {s₁ : State cfg τ} {server : ServerContainer}
    (hr : (contextSystem cfg τ).Reachable s) (h : Wired s₁ s t server) (hs : Step s a s') :
    Wired s₁ s' t server where
  lt := h.lt.trans_le (nextId_of_step hs)
  leaves pc' hf' := by
    rcases attach_before hs hf' with ⟨pc, hf⟩ | ⟨heq, -⟩
    · obtain ⟨hleaves, hun⟩ := h.leaves pc hf
      have hhidden : s.Hidden server.id := by
        by_cases hpc : pc = .unlocking true
        · exact Or.inr (ready_of_unlocking hr (hpc ▸ hf))
        · exact Or.inl ((attachOk_of_reachable hr).before t server pc hf hpc)
      exact ⟨hleaves.trans (hhidden.leaves hr h.lt hun hs), hhidden.unserved hr hun hs⟩
    · exact absurd heq h.lt.ne

/-- Where an `attach_server` goes from its check, which finds the context `Ready` or not. -/
def AttachFollows (ready : Prop) (state : ExecutionState) : AttachPc → Prop
  | .locking => False
  | .checking => state = .Ready ↔ ready
  | .pushing | .unlocking true => ready
  | .unlocking false => ¬ ready

/-- What the thread finds in the check is the state at any time while it is about to check. -/
theorem attachFollows_step {ready : Prop} {server : ServerContainer}
    (hr : (contextSystem cfg τ).Reachable s) (hid : server.id < s.nextId)
    (h : ∀ pc, s.frame t = some (.attach server pc) → AttachFollows ready s.state pc)
    (hs : Step s a s') {pc' : AttachPc} (hf' : s'.frame t = some (.attach server pc')) :
    AttachFollows ready s'.state pc' := by
  rcases eq_or_ne t a.thread with rfl | hne
  · rcases attach_before hs hf' with ⟨pc, hf⟩ | ⟨heq, -⟩
    · have hat := attachStep_of_step hs hf
      have hfollows := h pc hf
      generalize a.thread = t at *
      have hself : ∀ {f}, s'.frame = Function.update s.frame t f →
          f = some (.attach server pc') := by
        intro f hframe
        rwa [hframe, Function.update_self] at hf'
      cases hat with
      | lock => exact absurd hfollows id
      | accept hready =>
        cases hself rfl
        exact hfollows.mp hready
      | refuse hready =>
        cases hself rfl
        exact mt hfollows.mpr hready
      | push =>
        cases hself rfl
        exact hfollows
      | unlock | throw => cases hself rfl
    · exact absurd heq hid.ne
  · have hf := (frame_of_step hs hne).symm.trans hf'
    have hfollows := h pc' hf
    cases pc' with
    | checking =>
      refine Iff.trans ⟨fun hready => ?_, ready_of_step hr hs hf trivial⟩ hfollows
      cases stateChange_of_step hs with
      | same hstate => exact hstate ▸ hready
      | run _ hold => exact hold
      | shutDown _ _ hnew | stop _ _ hnew =>
        rw [hready] at hnew
        cases hnew
    | unlocking b => cases b <;> exact hfollows
    | locking | pushing => exact hfollows

/-! ### All or nothing -/

/-- A `make`, called in `s₀` and leading to `s₁`, that ends with the step from `s` to `s'`: if it
throws, the container is not attached and none of the handlers armed is outstanding; if it
returns, the container was appended once, and `wire_rpcs` was applied once to each queue. -/
structure MakeOk (s₀ s₁ s s' : State cfg τ) (wired : List (List Bool)) : Prop where
  threw : s'.threw ≠ s.threw → (∀ server ∈ s'.servers, server.id ≠ s₀.nextId) ∧
    ∀ n, s₀.nextHandler ≤ n → n < s₁.nextHandler →
      ∀ j, .handler n ∉ (s'.cq (.server s₀.nextId j)).pending
  returned : s'.threw = s.threw → s'.servers.count ⟨s₀.nextId, wired.length⟩ = 1 ∧
    ∀ j l, wired[j]? = some l → ∃ first, s'.WiredOnce (.server s₀.nextId j) l first

section Make

variable {s₀ s₁ c : State cfg τ} {wired : List (List Bool)}

/-- With no work queue, `make` throws before it wires anything. -/
theorem makeOk_nil (h : (contextSystem cfg τ).Reachable s₀)
    (hcall : Step s₀ (.call t (.makeServer [])) s₁) : MakeOk s₀ s₁ s₀ s₁ [] := by
  cases hcall with
  | call =>
    refine ⟨fun _ => ⟨fun server hmem => ?_, fun n hge hlt => ?_⟩, fun heq => ?_⟩
    · exact ((attachOk_of_reachable h).attached server hmem).ne
    · exact absurd hlt (not_lt.mpr hge)
    · exact absurd heq (by simp [begin, beginAttach])

/-- What the call has wired, one after the other, on its queues. -/
theorem wiresAll_of_call (hcall : Step s₀ (.call t (.makeServer wired)) s₁) (hne : wired ≠ []) :
    WiresAll s₀ s₁ s₀.nextId 0 wired ∧ s₁.nextId = s₀.nextId + 1 := by
  cases hcall with
  | call =>
    obtain ⟨hnext, hother, hold, hfresh, honce⟩ := wiresAll_wire s₀.nextId wired s₀ 0
    simp only [begin, beginAttach, if_neg hne]
    exact ⟨⟨hnext, hother, hold, hfresh, honce⟩, trivial⟩

theorem once_of_call (h : (contextSystem cfg τ).Reachable s₀)
    (hcall : Step s₀ (.call t (.makeServer wired)) s₁) {j : ℕ} {l : List Bool}
    (hj : wired[j]? = some l) : ∃ first, s₀.nextHandler ≤ first ∧
      first + l.length ≤ s₁.nextHandler ∧ s₁.WiredOnce (.server s₀.nextId j) l first := by
  have hne : wired ≠ [] := by
    rintro rfl
    simp at hj
  obtain ⟨hwires, -⟩ := wiresAll_of_call hcall hne
  have hempty := pending_of_new h (0 + j)
  obtain ⟨first, hge, hle, honce⟩ := hwires.once j l hj hempty
  rw [Nat.zero_add] at honce
  exact ⟨first, hge, hle, honce⟩

theorem wired_of_call (h : (contextSystem cfg τ).Reachable s₀)
    (hcall : Step s₀ (.call t (.makeServer wired)) s₁) (hne : wired ≠ []) :
    Wired s₁ s₁ t ⟨s₀.nextId, wired.length⟩ := by
  obtain ⟨hwires, hnext⟩ := wiresAll_of_call hcall hne
  refine ⟨by rw [hnext]; exact Nat.lt_succ_self _, fun _ _ => ⟨Leaves.refl s₁ _, ?_⟩⟩
  intro n hn j hcq
  have hservers := serversOk_of_reachable h
  rcases serving_of_step hservers (pushesOk_of_reachable h) (clean_of_reachable h) hcall hn with
    hold | ⟨q, w, answer, k, i, c, m, ha, -⟩
  · have hlt := hservers.lt hold
    rw [hwires.old n hlt] at hcq
    exact absurd (lt_of_handler h hlt hcq) (Nat.lt_irrefl _)
  · cases ha

/-- While the thread is in `make`, its container is as it was wired. -/
theorem wired_of_leads (h : (contextSystem cfg τ).Reachable s₀)
    (hcall : s₀.step (.call t (.makeServer wired)) = some s₁) (hne : wired ≠ [])
    (hl : (contextSystem cfg τ).Leads (fun _ _ => True) s₁ s) :
    (contextSystem cfg τ).Reachable s ∧ Wired s₁ s t ⟨s₀.nextId, wired.length⟩ := by
  have hstep := (step_spec hcall).2
  refine hl.invariant (I := fun u => (contextSystem cfg τ).Reachable u ∧
    Wired s₁ u t ⟨s₀.nextId, wired.length⟩)
    ⟨reachable_step h hcall, wired_of_call h hstep hne⟩ fun u a u' hI _ hs => ?_
  exact ⟨hI.1.step trivial hs, hI.2.step hI.1 (step_spec hs).2⟩

/-- The outcome of `attach_server` is that of its check. -/
theorem attachFollows_of_leads {server : ServerContainer} (h : (contextSystem cfg τ).Reachable c)
    (hf : c.frame t = some (.attach server .checking))
    (hl : (contextSystem cfg τ).Leads (fun _ _ => True) c s) {pc : AttachPc}
    (hpc : s.frame t = some (.attach server pc)) :
    AttachFollows (c.state = .Ready) s.state pc := by
  have hid := (attachOk_of_reachable h).fresh t server _ hf
  have hinv : (contextSystem cfg τ).Reachable s ∧ server.id < s.nextId ∧
      ∀ pc, s.frame t = some (.attach server pc) →
        AttachFollows (c.state = .Ready) s.state pc := by
    refine hl.invariant (I := fun u => (contextSystem cfg τ).Reachable u ∧ server.id < u.nextId ∧
      ∀ pc, u.frame t = some (.attach server pc) → AttachFollows (c.state = .Ready) u.state pc)
      ⟨h, hid, fun pc hpc => ?_⟩ fun u a u' hI _ hs => ?_
    · cases hf.symm.trans hpc
      exact Iff.rfl
    · obtain ⟨hr, hlt, hfollows⟩ := hI
      have hstep := (step_spec hs).2
      exact ⟨hr.step trivial hs, hlt.trans_le (nextId_of_step hstep),
        fun pc' hf' => attachFollows_step hr hlt hfollows hstep hf'⟩
  exact hinv.2.2 pc hpc

/-- **When building a server is all-or-nothing.** With no work queue `make` throws before anything
is wired. Otherwise, whatever the other threads do in the meantime, it is all-or-nothing exactly
when the context is `Ready` at the check of `attach_server`. -/
theorem make_iff (h : (contextSystem cfg τ).Reachable s₀) (harms : ∀ l ∈ wired, l ≠ [])
    (hcall : s₀.step (.call t (.makeServer wired)) = some s₁) :
    (wired = [] → MakeOk s₀ s₁ s₀ s₁ wired) ∧
      (wired ≠ [] → ∀ c s s' a pc, (contextSystem cfg τ).Leads (fun _ _ => True) s₁ c →
        c.frame t = some (.attach ⟨s₀.nextId, wired.length⟩ .checking) →
        (contextSystem cfg τ).Leads (fun _ _ => True) c s →
        s.frame t = some (.attach ⟨s₀.nextId, wired.length⟩ pc) →
        s.step a = some s' → s'.frame t = none →
        (MakeOk s₀ s₁ s s' wired ↔ c.state = .Ready)) := by
  have hcall' := (step_spec hcall).2
  refine ⟨fun hnil => ?_, fun hne c s s' a pc hlc hc hls hf hs hret => ?_⟩
  · subst hnil
    exact makeOk_nil h hcall'
  have hstep := (step_spec hs).2
  obtain ⟨hrc, -⟩ := wired_of_leads h hcall hne hlc
  obtain ⟨hr, hwired⟩ := wired_of_leads h hcall hne (hlc.trans hls)
  have hfollows := attachFollows_of_leads hrc hc hls hf
  obtain ⟨hleaves, -⟩ := hwired.leaves pc hf
  obtain rfl : t = a.thread := by
    by_contra hother
    rw [frame_of_step hstep hother, hf] at hret
    cases hret
  have hat := attachStep_of_step hstep hf
  generalize a.thread = t at *
  cases hat with
  | lock | accept | refuse | push => simp [setFrame] at hret
  | unlock =>
    refine iff_of_true ⟨fun hthrew => absurd rfl hthrew, fun _ => ⟨?_, fun j l hj => ?_⟩⟩ hfollows
    · exact (attachOk_of_reachable hr).after t _ hf
    · obtain ⟨first, -, hle, honce⟩ := once_of_call h hcall' hj
      exact ⟨first, hleaves.wiredOnce hle honce⟩
  | throw =>
    refine iff_of_false (fun hok => ?_) hfollows
    -- the handlers of the first queue are still there
    obtain ⟨l, rest, rfl⟩ := List.exists_cons_of_ne_nil hne
    obtain ⟨first, hge, hle, honce⟩ := once_of_call h hcall' (j := 0) rfl
    have hlen : 0 < l.length := List.length_pos_iff.mpr (harms l List.mem_cons_self)
    have hnone := (hok.threw (by simp)).2 first hge (by omega) 0
    refine hnone ?_
    show .handler first ∈ (s.cq (.server s₀.nextId 0)).pending
    rw [(hleaves.wiredOnce hle honce).1]
    exact List.mem_map.mpr ⟨0, List.mem_range.mpr hlen, rfl⟩

/-- A `make` that finds the context `Ready`, and one without a work queue. -/
theorem make_iff_calls : (∃ s s' : State oneThread Unit,
    MakeOk .initial (State.initial.begin (.client ()) (.makeServer [[true]])) s s' [[true]]) ∧
      MakeOk (.initial : State oneThread Unit)
        (State.initial.begin (.client ()) (.makeServer [])) .initial
        (State.initial.begin (.client ()) (.makeServer [])) [] := by
  let S := contextSystem oneThread Unit
  have hinit : S.Reachable .initial := .init rfl
  have hcall : ∀ wired, (.initial : State oneThread Unit).step
      (.call (.client ()) (.makeServer wired)) =
        some (State.initial.begin (.client ()) (.makeServer wired)) := fun _ => rfl
  refine ⟨?_, (make_iff hinit (by simp) (hcall [])).1 rfl⟩
  let s₁ : State oneThread Unit := State.initial.begin (.client ()) (.makeServer [[true]])
  let c := (S.exec s₁ [go (.client ())]).get (by decide)
  let s := (S.exec c (List.replicate 2 (go (.client ())))).get (by decide)
  let s' := (S.step s (go (.client ()))).get (by decide)
  have hready : c.state = .Ready := by decide
  have hlc : S.Leads (fun _ _ => True) s₁ c :=
    System.leads_of_exec (fun _ _ => trivial) (Option.some_get _).symm
  have hls : S.Leads (fun _ _ => True) c s :=
    System.leads_of_exec (fun _ _ => trivial) (Option.some_get _).symm
  have hone := (make_iff hinit (by simp) (hcall [[true]])).2 (by simp) c s s' (go (.client ()))
    (.unlocking true) hlc (by decide) hls (by decide) (Option.some_get _).symm (by decide)
  exact ⟨s, s', hone.mpr hready⟩

/-- The context is running when a container is made: `attach_server` throws, and the handler that
`wire_rpcs` has armed is still outstanding on a queue that no thread polls. -/
theorem handler_left_behind : ¬ ∀ (s₀ s₁ s s' : State oneThread Unit) (wired : List (List Bool))
    (a : Act Unit) (pc : AttachPc), (contextSystem oneThread Unit).Reachable s₀ →
      (∀ l ∈ wired, l ≠ []) → s₀.step (.call (.client ()) (.makeServer wired)) = some s₁ →
      (contextSystem oneThread Unit).Leads (fun _ _ => True) s₁ s →
      s.frame (.client ()) = some (.attach ⟨s₀.nextId, wired.length⟩ pc) →
      s.step a = some s' → s'.frame (.client ()) = none → MakeOk s₀ s₁ s s' wired := by
  intro hall
  let S := contextSystem oneThread Unit
  let s₀ := (S.exec .initial runCalls).get (by decide)
  let s₁ := (S.step s₀ (.call (.client ()) (.makeServer [[true]]))).get (by decide)
  let s := (S.exec s₁ (List.replicate 2 (go (.client ())))).get (by decide)
  let s' := (S.step s (go (.client ()))).get (by decide)
  have hs₀ : S.Reachable s₀ := System.reachable_of_exec rfl (Option.some_get _).symm
  have hls : S.Leads (fun _ _ => True) s₁ s :=
    System.leads_of_exec (fun _ _ => trivial) (Option.some_get _).symm
  have hok := hall s₀ s₁ s s' [[true]] (go (.client ())) (.unlocking false) hs₀ (by simp)
    (Option.some_get _).symm hls (by decide) (Option.some_get _).symm (by decide)
  have hout : Event.handler 0 ∈ (s'.cq (.server s₀.nextId 0)).pending := by decide
  exact (hok.threw (by decide)).2 0 (by decide) (by decide) 0 hout

end Make

end State

end Sgrpc
