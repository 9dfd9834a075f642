import Sgrpc.Context.Passes
import Sgrpc.Interleaving.Placement

/-!
# Every event is completed

The events that `post` has made form a linear family of tokens: each is pending in a queue of the
context, in the hands of a worker that is in its `complete`, or completed (`EventsOk`). A worker
leaves its loop with empty hands and, if it is worker `0`, with the queues exhausted; when all
workers have been joined the events can only be completed, each exactly once (`handshake`).
-/

namespace Sgrpc

open Interleaving

/-- The event whose `complete` the worker is in. -/
def WorkerPc.hand : WorkerPc → List Event
  | .completing _ _ _ (.client e _) => [e]
  | _ => []

/-- Where an event can be. -/
inductive EventPlace where
  | queue (i : ℕ)
  | hand (w : ℕ)
  | completed

theorem PostKind.event_ne_handler (kind : PostKind) (id h : ℕ) : kind.event id ≠ .handler h := by
  cases kind <;> simp [PostKind.event]

namespace State

variable {cfg : Config} {τ : Type*} {s s' : State cfg τ} {w : ℕ}

/-- The events in each place. -/
def eventPlaces (s : State cfg τ) : EventPlace → List Event
  | .queue i => (s.cq (.own i)).pending
  | .hand w => (s.worker w).hand
  | .completed => s.completed

/-! ### What is pending where -/

/-- Events of `post` are pending in the queues of the context, those of handlers in the queues of
servers. -/
structure PendingOk (s : State cfg τ) : Prop where
  made : ∀ e ∈ s.made, ∀ h, e ≠ .handler h
  server : ∀ k j, ∀ e ∈ (s.cq (.server k j)).pending, ∃ h, e = .handler h
  own : ∀ i, ∀ e ∈ (s.cq (.own i)).pending, i < cfg.nCqs
  creating : ∀ t kind id i, s.frame t = some (.post kind id (.creating i)) → i < cfg.nCqs

/-- The pending events of a queue, after some events of one of the queues have been taken. -/
theorem mem_pending_take {q q' : QueueId} {m : ℕ} {e : Event}
    (he : e ∈ (Function.update s.cq q { s.cq q with pending := (s.cq q).pending.eraseIdx m }
      q').pending) : e ∈ (s.cq q').pending := by
  rcases eq_or_ne q' q with rfl | hq
  · rw [Function.update_self] at he
    exact List.mem_of_mem_eraseIdx he
  · rwa [Function.update_of_ne hq] at he

/-- `Shutdown()` leaves the pending events alone. -/
theorem pending_shutdown (s : State cfg τ) (q q' : QueueId) :
    (Function.update s.cq q (s.cq q).shutdown q').pending = (s.cq q').pending := by
  rcases eq_or_ne q' q with rfl | hq
  · rw [Function.update_self]
    rfl
  · rw [Function.update_of_ne hq]

variable [DecidableEq τ] {a : Act τ} {t : Tid τ}

theorem PendingOk.step (h : s.PendingOk) (hpost : PostChange s a s') (hown : OwnStep s a s') :
    s'.PendingOk := by
  constructor
  · intro e he
    cases hpost with
    | same hsame => exact h.made e (hsame.made ▸ he)
    | call => exact h.made e he
    | @post t kind id pc answer hf =>
      rcases pc with - | (_ | _) | i | can
      · exact h.made e he
      · exact h.made e he
      · exact h.made e he
      · rcases answer with ⟨slot, _ | _, reenters⟩
        · rcases List.mem_append.mp he with he | he
          · exact h.made e he
          · rw [List.mem_singleton.mp he]
            exact kind.event_ne_handler id
        · exact h.made e he
      · exact h.made e he
  · intro k j e he
    cases hown with
    | same hsame => exact (hsame.started k j e he).elim (h.server k j e) fun hh => hh
    | @create t kind id i =>
      have he' : e ∈ (Function.update s.cq (.own i) ((s.cq (.own i)).start (kind.event id))
        (.server k j)).pending := he
      rw [Function.update_of_ne (by simp)] at he'
      exact h.server k j e he'
    | halt =>
      refine h.server k j e ?_
      rwa [← pending_shutdown]
    | take =>
      exact h.server k j e (mem_pending_take he)
  · intro i e he
    cases hown with
    | same hsame => exact h.own i e (hsame.own i ▸ he)
    | @create t kind id j _ _ _ hf =>
      have he' : e ∈ (Function.update s.cq (.own j) ((s.cq (.own j)).start (kind.event id))
        (.own i)).pending := he
      rcases eq_or_ne i j with rfl | hij
      · exact h.creating t kind id i hf
      · rw [Function.update_of_ne (by simpa using hij)] at he'
        exact h.own i e he'
    | halt =>
      refine h.own i e ?_
      rwa [← pending_shutdown]
    | take =>
      exact h.own i e (mem_pending_take he)
  · intro t kind id i hf
    cases hpost with
    | same hsame => exact h.creating t kind id i ((hsame.post ..).mp hf)
    | call =>
      rcases update_frame_iff.mp hf with ⟨-, heq⟩ | ⟨-, hf'⟩
      · cases heq
      · exact h.creating t kind id i hf'
    | @post u kind' id' pc answer =>
      obtain ⟨next, hframe, hnext⟩ := frame_postStep s u kind' id' answer.throws pc
      rw [hframe, update_frame_iff] at hf
      rcases hf with ⟨-, heq⟩ | ⟨-, hf⟩
      · obtain ⟨pc', hpc', hmoved⟩ := Option.map_eq_some_iff.mp heq
        cases hmoved
        exact (hnext _ hpc').2 i rfl
      · exact h.creating t kind id i hf

theorem pendingOk_of_reachable (h : (contextSystem cfg τ).Reachable s) : s.PendingOk := by
  refine h.invariant ?_ fun _ _ _ hr hI _ hs => ?_
  · rintro _ rfl
    refine ⟨fun _ he => ?_, fun _ _ _ he => ?_, fun _ _ he => ?_, fun _ _ _ _ hf => ?_⟩
    · cases he
    · cases he
    · cases he
    · cases hf
  · have hstep := (step_spec hs).2
    exact hI.step (postChange_of_step hstep)
      (ownStep_of_step (serverHandlers_of_reachable hr) hstep)

/-! ### Where the events are -/

/-- Every event made is in one place. -/
structure EventsOk (s : State cfg τ) : Prop where
  linear : Linear s.eventPlaces
  placed : ∀ e, Placed s.eventPlaces e ↔ e ∈ s.made

omit [DecidableEq τ] in
theorem eventsOk_initial : (initial : State cfg τ).EventsOk where
  linear := .empty fun p => by cases p <;> rfl
  placed e := by
    refine iff_of_false ?_ (by simp [initial])
    rintro ⟨p | p | p, hp⟩ <;> cases hp

omit [DecidableEq τ] in
/-- Steps that move no event. -/
theorem EventsOk.of_same (h : s.EventsOk) (hplaces : s'.eventPlaces = s.eventPlaces)
    (hmade : s'.made = s.made) : s'.EventsOk where
  linear := hplaces ▸ h.linear
  placed e := by rw [hplaces, hmade, h.placed]

omit [DecidableEq τ] in
/-- A step that moves one event on. -/
theorem EventsOk.move (h : s.EventsOk) (e : Event) (p p' : EventPlace)
    (hmoved : Moved s.eventPlaces s'.eventPlaces p p' [e]) (hne : p ≠ p')
    (hmade : s'.made = s.made) : s'.EventsOk where
  linear := h.linear.move hmoved hne
  placed e' := by rw [hmoved.placed_iff hne, hmade, h.placed]

/-- The factory makes an event. -/
theorem EventsOk.create (h : s.EventsOk) (hposts : s.PostsOk) {kind : PostKind} {id i : ℕ}
    (hf : s.frame t = some (.post kind id (.creating i))) :
    (s.postStep t kind id false (.creating i)).EventsOk := by
  have hfresh : kind.event id ∉ s.made := by
    rw [(hposts.running t kind id _ hf).2.2.2]
    simp
  have hins : Inserted s.eventPlaces (s.postStep t kind id false (.creating i)).eventPlaces
      (.queue i) (kind.event id) := by
    constructor
    · show (Function.update s.cq (.own i) ((s.cq (.own i)).start (kind.event id))
        (.own i)).pending = _
      rw [Function.update_self]
      rfl
    · rintro (j | v | _) hne
      · show (Function.update s.cq (.own i) ((s.cq (.own i)).start (kind.event id))
          (.own j)).pending = _
        rw [Function.update_of_ne (by simpa using hne)]
        rfl
      · rfl
      · rfl
  constructor
  · exact h.linear.insert hins fun hp => hfresh ((h.placed _).mp hp)
  · intro e
    rw [hins.placed_iff, h.placed]
    show _ ↔ e ∈ s.made ++ [kind.event id]
    rw [List.mem_append, List.mem_singleton]

omit [DecidableEq τ] in
/-- A worker moves on with the same event in its hand, or none, and no event moves elsewhere. -/
theorem eventPlaces_of_worker {pc : WorkerPc} (hworker : s'.worker = Function.update s.worker w pc)
    (hhand : pc.hand = (s.worker w).hand)
    (hpending : ∀ i, (s'.cq (.own i)).pending = (s.cq (.own i)).pending)
    (hcompleted : s'.completed = s.completed) : s'.eventPlaces = s.eventPlaces := by
  funext p
  rcases p with i | v | _
  · exact hpending i
  · show (s'.worker v).hand = (s.worker v).hand
    rw [hworker]
    rcases eq_or_ne v w with rfl | hv
    · rw [Function.update_self, hhand]
    · rw [Function.update_of_ne hv]
  · exact hcompleted

omit [DecidableEq τ] in
/-- A worker takes an event from a queue. -/
theorem EventsOk.take (h : s.EventsOk) (hpending : s.PendingOk) {k i j m : ℕ} {c : PassCounts}
    {e : Event} {isOk : Bool} (hw : (s.worker w).hand = [])
    (he : (s.cq (s.queueAt k j)).pending[m]? = some e) :
    ((s.setCq (s.queueAt k j) { s.cq (s.queueAt k j) with
      pending := (s.cq (s.queueAt k j)).pending.eraseIdx m }).setWorker w
        (.completing k i c (completionOf isOk e))).EventsOk := by
  obtain ⟨hm, hget⟩ := List.getElem?_eq_some_iff.mp he
  have hmem : e ∈ (s.cq (s.queueAt k j)).pending := hget ▸ List.getElem_mem hm
  set s' := (s.setCq (s.queueAt k j) { s.cq (s.queueAt k j) with
    pending := (s.cq (s.queueAt k j)).pending.eraseIdx m }).setWorker w
      (.completing k i c (completionOf isOk e))
  have hmade : s'.made = s.made := rfl
  have hcompleted : s'.completed = s.completed := rfl
  have hworker : s'.worker = Function.update s.worker w (.completing k i c (completionOf isOk e)) :=
    rfl
  have hcq : s'.cq = Function.update s.cq (s.queueAt k j) { s.cq (s.queueAt k j) with
    pending := (s.cq (s.queueAt k j)).pending.eraseIdx m } := rfl
  cases k with
  | zero =>
    -- an event of `post` goes from its queue into the hand of the worker
    have hclient : completionOf isOk e = .client e isOk := by
      have hin : e ∈ s.made := (h.placed e).mp ⟨.queue j, hmem⟩
      rcases e with id | id | h'
      · rfl
      · rfl
      · exact absurd rfl (hpending.made _ hin h')
    refine h.move e (.queue j) (.hand w) ⟨?_, ?_, ?_⟩ (by simp) hmade
    · show (s.cq (.own j)).pending.Perm ([e] ++ (s'.cq (.own j)).pending)
      rw [hcq]
      show (s.cq (.own j)).pending.Perm ([e] ++ (Function.update s.cq (.own j) _ (.own j)).pending)
      rw [Function.update_self, ← hget]
      exact (List.getElem_cons_eraseIdx_perm hm).symm
    · show (s'.worker w).hand = (s.worker w).hand ++ [e]
      rw [hworker, Function.update_self, hw, hclient]
      rfl
    · rintro (j' | v | _) hne hne'
      · show (s'.cq (.own j')).pending = (s.cq (.own j')).pending
        have hj : j' ≠ j := fun heq => hne (by rw [heq])
        rw [hcq]
        show (Function.update s.cq (.own j) _ (.own j')).pending = _
        rw [Function.update_of_ne (by simpa using hj)]
      · show (s'.worker v).hand = (s.worker v).hand
        have hv : v ≠ w := fun heq => hne' (by rw [heq])
        rw [hworker, Function.update_of_ne hv]
      · exact hcompleted
  | succ k =>
    -- the events of servers are those of handlers
    obtain ⟨h', rfl⟩ := hpending.server _ j e hmem
    refine h.of_same (eventPlaces_of_worker hworker ?_ ?_ hcompleted) hmade
    · rw [hw]
      rfl
    · intro i'
      rw [hcq]
      show (Function.update s.cq (.server _ j) _ (.own i')).pending = _
      rw [Function.update_of_ne (by simp)]

omit [DecidableEq τ] in
/-- The `complete` of an event is over. -/
theorem EventsOk.completed (h : s.EventsOk) {e : Event} {pc : WorkerPc}
    (hw : (s.worker w).hand = [e]) (hworker : s'.worker = Function.update s.worker w pc)
    (hhand : pc.hand = []) (hcq : s'.cq = s.cq) (hcompleted : s'.completed = s.completed ++ [e])
    (hmade : s'.made = s.made) : s'.EventsOk := by
  refine h.move e (.hand w) .completed ⟨?_, hcompleted, ?_⟩ (by simp) hmade
  · show (s.worker w).hand.Perm ([e] ++ (s'.worker w).hand)
    rw [hw, hworker, Function.update_self, hhand]
    exact List.Perm.refl _
  · rintro (i | v | _) hne hne'
    · show (s'.cq (.own i)).pending = (s.cq (.own i)).pending
      rw [hcq]
    · show (s'.worker v).hand = (s.worker v).hand
      have hv : v ≠ w := fun heq => hne (by rw [heq])
      rw [hworker, Function.update_of_ne hv]
    · exact absurd rfl hne'

/-- The `complete` of a handler moves no event of `post`. -/
theorem completeStep_handler (s : State cfg τ) (w k i : ℕ) (c : PassCounts) (h : ℕ) (isOk : Bool)
    (stage : Stage) :
    ∃ pc, (s.completeStep w k i c (.handler h isOk stage)).worker =
        Function.update s.worker w pc ∧ pc.hand = [] ∧
      (s.completeStep w k i c (.handler h isOk stage)).completed = s.completed ∧
      (s.completeStep w k i c (.handler h isOk stage)).made = s.made := by
  cases stage with
  | entered =>
    simp only [completeStep]
    obtain ⟨cq, handler, nextHandler, harm⟩ := arm_eq s (s.handler h).cq (s.handler h).immediate
    rw [harm]
    split <;> exact ⟨_, rfl, rfl, rfl, rfl⟩
  | armed =>
    simp only [completeStep]
    split <;> exact ⟨_, rfl, rfl, rfl, rfl⟩
  | posting => exact ⟨_, rfl, rfl, rfl, rfl⟩

omit [DecidableEq τ] in
theorem execute_completed (s : State cfg τ) (thunk : Thunk) (throws : Bool) (work : WorkEnd) :
    (s.execute thunk throws work).completed = s.completed ∧
      (s.execute thunk throws work).made = s.made := by
  obtain ⟨cq, suspended, hexec⟩ := execute_eq s thunk throws work
  rw [hexec]
  exact ⟨rfl, rfl⟩

theorem EventsOk.loopStep (h : s.EventsOk) (hpending : s.PendingOk) (hhandlers : s.ServerHandlers)
    {answer : WorkAnswer} (hs : LoopStep s w answer (s.worker w) s') : s'.EventsOk := by
  generalize hpc : s.worker w = pc at hs
  have hhand : (s.worker w).hand = pc.hand := by rw [hpc]
  -- a step that takes and completes nothing
  have hsame : ∀ {pc'}, s'.worker = Function.update s.worker w pc' → pc'.hand = pc.hand →
      (∀ i, (s'.cq (.own i)).pending = (s.cq (.own i)).pending) → s'.completed = s.completed →
      s'.made = s.made → s'.EventsOk := fun hworker hhand' hp hc hm =>
    h.of_same (eventPlaces_of_worker hworker (hhand'.trans hhand.symm) hp hc) hm
  cases hs with
  | stop | pass | stopped | pollNone | pollShutdown | nextSet | polled | leave | stay | popCall
  | pop | popped | missed | ejectCall | eject | ejected | exit =>
    exact hsame rfl rfl (fun _ => rfl) rfl rfl
  | pollEvent hi _ hq he =>
    subst hq
    exact h.take hpending hhand he
  | @complete k i c what =>
    rcases what with ⟨e, isOk⟩ | ⟨h', isOk, stage⟩
    · rcases e with id | id | h' <;> exact h.completed hhand rfl rfl rfl rfl rfl
    · obtain ⟨pc', hworker, hnone, hcompleted, hmade⟩ :=
        completeStep_handler s w k i c h' isOk stage
      have hown := (serverOnly_completeStep hhandlers w k i c (.handler h' isOk stage)).own
      exact hsame hworker hnone (fun i => by rw [hown i]) hcompleted hmade
  | @run thunk =>
    obtain ⟨hcompleted, hmade⟩ := execute_completed s thunk answer.throws answer.work
    have hown := (serverOnly_execute s hhandlers thunk answer.throws answer.work).own
    have hworker : ((s.execute thunk answer.throws answer.work).setWorker w .top).worker =
        Function.update s.worker w .top := worker_execute
    exact hsame hworker rfl (fun i => congrArg _ (hown i)) hcompleted hmade
  | @executeNext thunk rest =>
    obtain ⟨hcompleted, hmade⟩ := execute_completed s thunk answer.throws answer.work
    have hown := (serverOnly_execute s hhandlers thunk answer.throws answer.work).own
    have hworker :
        ((s.execute thunk answer.throws answer.work).setWorker w (.executing rest)).worker =
          Function.update s.worker w (.executing rest) := worker_execute
    exact hsame hworker rfl (fun i => congrArg _ (hown i)) hcompleted hmade

theorem EventsOk.step (h : s.EventsOk) (hposts : s.PostsOk) (hpending : s.PendingOk)
    (hhandlers : s.ServerHandlers) (hs : Step s a s') : s'.EventsOk := by
  have hpost := postChange_of_step hs
  have hown := ownStep_of_step hhandlers hs
  rcases loop_of_step hs with hloops | ⟨w, answer, rfl, -, -, hloop⟩
  · -- the workers stay where they are
    have hsame : (∀ i, (s'.cq (.own i)).pending = (s.cq (.own i)).pending) → s'.made = s.made →
        s'.EventsOk := by
      intro hp hm
      refine h.of_same ?_ hm
      funext p
      rcases p with i | v | _
      · exact hp i
      · exact congrArg (fun f => (f v).hand) hloops.worker
      · exact hloops.completed
    have hmade : s'.made = s.made ∨ ∃ t kind id i, s.frame t = some (.post kind id (.creating i)) ∧
        s' = s.postStep t kind id false (.creating i) := by
      cases hpost with
      | same hsame => exact Or.inl hsame.made
      | call => exact Or.inl rfl
      | @post t kind id pc answer hf =>
        rcases pc with - | (_ | _) | i | can
        · exact Or.inl rfl
        · exact Or.inl rfl
        · exact Or.inl rfl
        · rcases answer with ⟨slot, _ | _, reenters⟩
          · exact Or.inr ⟨t, kind, id, i, hf, rfl⟩
          · exact Or.inl rfl
        · exact Or.inl rfl
    rcases hmade with hmade | ⟨t, kind, id, i, hf, rfl⟩
    · cases hown with
      | same hown => exact hsame (fun i => by rw [hown.own i]) hmade
      | create hf => exact h.create hposts hf
      | halt => exact hsame (fun i => pending_shutdown s _ _) hmade
      | @take w k i m c q e isOk answer hw hlt hq he =>
        -- it is a step of a loop
        have hw' : Function.update s.worker w _ w = s.worker w := congrFun hloops.worker w
        rw [Function.update_self, hw] at hw'
        cases hw'
    · exact h.create hposts hf
  · exact h.loopStep hpending hhandlers hloop

theorem eventsOk_of_reachable (h : (contextSystem cfg τ).Reachable s) : s.EventsOk := by
  refine h.invariant ?_ fun _ _ _ hr hI _ hs => hI.step (postsOk_of_reachable hr)
    (pendingOk_of_reachable hr) (serverHandlers_of_reachable hr) (step_spec hs).2
  rintro _ rfl
  exact eventsOk_initial

/-! ### Stopping after `run_while` has returned -/

/-- Every event made has been completed once the state is `Stopped`. -/
theorem completed_of_stopped (h : (contextSystem cfg τ).ReachableUnder RangeComplete s)
    (hst : s.state = .Stopped) {e : Event} (he : e ∈ s.made) : s.completed.count e = 1 := by
  have hevents := eventsOk_of_reachable h.reachable
  obtain ⟨p, hp⟩ := (hevents.placed e).mpr he
  rcases p with i | w | _
  · -- worker `0` has left its loop, so the queue is exhausted
    have hzero : s.worker 0 = .exited := by
      obtain ⟨hcreated, hjoined⟩ := (joinOk_of_reachable h).stopped hst
      have hone : s.joins 0 = 1 := by rw [hjoined 0, if_pos cfg.nThreads_pos]
      exact exited_of_joined h.reachable (by omega)
    have hpass := passOk_of_reachable h.reachable 0
    rw [hzero] at hpass
    have hi := (pendingOk_of_reachable h.reachable).own i e hp
    have hempty : (s.cq (.own i)).pending = [] := (exhausted_of_left hpass hi).2
    have hp' : e ∈ (s.cq (.own i)).pending := hp
    rw [hempty] at hp'
    cases hp'
  · have hp' : e ∈ (s.worker w).hand := hp
    rcases worker_of_stopped h hst w with ⟨-, hw⟩ | hw
    · rw [hw] at hp'
      cases hp'
    · rw [hw] at hp'
      cases hp'
  · exact hevents.linear.count_eq_one hp

/-- The client posts a factory. -/
def postCalls : List (Act Unit) :=
  .call (.client ()) .postRpc :: List.replicate 4 (go (.client ()))

/-- Worker `0` is handed the event of that factory, and completes it. -/
def completeTurns : List (Act Unit) :=
  turn false :: .work 0 ⟨false, .gotEvent 0 true, true, false, .finished⟩ ::
    List.replicate 8 (turn false)

end State

end Sgrpc
