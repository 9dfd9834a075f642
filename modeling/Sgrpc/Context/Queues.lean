import Sgrpc.Context.Spec

/-!
# The context's own completion queues

Server-side handlers live on the queues of servers only, so an event gets into one of the queues
in `cqs_` by `post` alone, and leaves it when a worker polls it (`OwnStep`).
-/

namespace Sgrpc

open Interleaving

namespace State

variable {cfg : Config} {τ : Type*} {s s' s'' : State cfg τ} {a : Act τ} {t : Tid τ} {w : ℕ}

/-- Every handler lives on a queue of a server. -/
def ServerHandlers (s : State cfg τ) : Prop := ∀ h, ∃ k j, (s.handler h).cq = .server k j

/-- The step concerns no queue in `cqs_`, keeps the handlers where they live, and starts nothing
but operations of handlers. -/
structure ServerOnly (s s' : State cfg τ) : Prop where
  own : ∀ i, s'.cq (.own i) = s.cq (.own i)
  handlers : s.ServerHandlers → s'.ServerHandlers
  started : ∀ k j e, e ∈ (s'.cq (.server k j)).pending →
    e ∈ (s.cq (.server k j)).pending ∨ ∃ h, e = .handler h

theorem ServerOnly.trans (h : ServerOnly s s') (h' : ServerOnly s' s'') : ServerOnly s s'' where
  own i := (h'.own i).trans (h.own i)
  handlers hs := h'.handlers (h.handlers hs)
  started k j e he := (h'.started k j e he).elim (h.started k j e) Or.inr

theorem ServerOnly.of_eq (hcq : s'.cq = s.cq) (hhandler : s'.handler = s.handler) :
    ServerOnly s s' where
  own i := by rw [hcq]
  handlers hs h := by
    rw [hhandler]
    exact hs h
  started k j e he := Or.inl (hcq ▸ he)

/-- Starting an operation of a handler. -/
theorem started_update (cq : QueueId → CompletionQueue) {q : QueueId} {h : ℕ} (k j : ℕ) (e : Event)
    (he : e ∈ (Function.update cq q ((cq q).start (.handler h)) (.server k j)).pending) :
    e ∈ (cq (.server k j)).pending ∨ ∃ h, e = .handler h := by
  rcases eq_or_ne (.server k j) q with rfl | hq
  · rw [Function.update_self] at he
    rcases List.mem_append.mp he with he | he
    · exact Or.inl he
    · exact Or.inr ⟨h, List.mem_singleton.mp he⟩
  · rw [Function.update_of_ne hq] at he
    exact Or.inl he

theorem serverOnly_setHandler (s : State cfg τ) (h : ℕ) (hd : Handler)
    (hcq : hd.cq = (s.handler h).cq) : ServerOnly s (s.setHandler h hd) where
  own _ := rfl
  handlers hs h' := by
    show ∃ k j, (Function.update s.handler h hd h').cq = .server k j
    rcases eq_or_ne h' h with rfl | hne
    · rw [Function.update_self, hcq]
      exact hs h'
    · rw [Function.update_of_ne hne]
      exact hs h'
  started _ _ _ he := Or.inl he

theorem serverOnly_arm (s : State cfg τ) (immediate : Bool) {q : QueueId}
    (hq : ∃ k j, q = .server k j) : ServerOnly s (s.arm q immediate) where
  own i := by
    obtain ⟨k, j, rfl⟩ := hq
    simp [arm, setCq, setHandler]
  handlers hs h' := by
    show ∃ k j, (Function.update s.handler s.nextHandler _ h').cq = .server k j
    rcases eq_or_ne h' s.nextHandler with rfl | hne
    · rw [Function.update_self]
      exact hq
    · rw [Function.update_of_ne hne]
      exact hs h'
  started := started_update s.cq

theorem serverOnly_finish (s : State cfg τ) (hs : s.ServerHandlers) (h : ℕ) :
    ServerOnly s (s.finish h) where
  own i := by
    obtain ⟨k, j, hq⟩ := hs h
    simp [finish, setCq, hq]
  handlers hs := hs
  started := started_update s.cq

theorem serverOnly_wireRpcs (s : State cfg τ) {q : QueueId} (hq : ∃ k j, q = .server k j)
    (wired : List Bool) : ServerOnly s (s.wireRpcs q wired) := by
  unfold wireRpcs
  induction wired generalizing s with
  | nil => exact .of_eq rfl rfl
  | cons immediate rest ih => exact (serverOnly_arm s immediate hq).trans (ih _)

theorem serverOnly_wire (s : State cfg τ) (id j : ℕ) (wired : List (List Bool)) :
    ServerOnly s (s.wire id j wired) := by
  induction wired generalizing s j with
  | nil => exact .of_eq rfl rfl
  | cons w rest ih => exact (serverOnly_wireRpcs s ⟨id, j, rfl⟩ w).trans (ih _ _)

theorem serverOnly_execute (s : State cfg τ) (hs : s.ServerHandlers) (thunk : Thunk)
    (throws : Bool) (work : WorkEnd) : ServerOnly s (s.execute thunk throws work) := by
  rcases thunk with ⟨id, _ | _ | h⟩
  · exact .of_eq rfl rfl
  · exact .of_eq rfl rfl
  · have hexec : ServerOnly s { s with executed := s.executed ++ [⟨id, .finish h⟩] } :=
      .of_eq rfl rfl
    cases work with
    | finished => exact hexec.trans (serverOnly_finish _ (hexec.handlers hs) h)
    | stopped => exact hexec
    | suspended => exact .of_eq rfl rfl

variable [DecidableEq τ]

theorem serverOnly_completeStep (hs : s.ServerHandlers) (w k i : ℕ) (c : PassCounts)
    (what : Completion) : ServerOnly s (s.completeStep w k i c what) := by
  rcases what with ⟨⟨id⟩ | ⟨id⟩ | ⟨h⟩, isOk⟩ | ⟨h, isOk, _ | _ | _⟩
  · exact .of_eq rfl rfl
  · exact .of_eq rfl rfl
  · exact .of_eq rfl rfl
  · simp only [completeStep]
    split
    · exact .of_eq rfl rfl
    · have harm := serverOnly_arm s (s.handler h).immediate (hs h)
      refine .trans (harm.trans (serverOnly_setHandler _ h _ ?_)) (.of_eq rfl rfl)
      rfl
  · simp only [completeStep]
    split
    · exact (serverOnly_finish s hs h).trans (.of_eq rfl rfl)
    · exact .of_eq rfl rfl
  · exact .of_eq rfl rfl

theorem serverOnly_afterPush {thunk : Thunk} {q : AtomicTaskStealingQueue Thunk cfg.nTaskQueues}
    {pc : PushPc Thunk} {ev : List (QueueEvent Thunk)} :
    ServerOnly s (s.afterPush t thunk q pc ev) := by
  cases pc <;> exact .of_eq rfl rfl

theorem serverOnly_workEndStep (hs : s.ServerHandlers) (h : ℕ) (stopped : Bool) :
    ServerOnly s (s.workEndStep t h stopped) := by
  cases stopped with
  | true => exact .of_eq rfl rfl
  | false => exact (serverOnly_finish s hs h).trans (.of_eq rfl rfl)

theorem serverOnly_begin {c : Call} : ServerOnly s (s.begin t c) := by
  cases c with
  | postAt | resume =>
    simp only [begin]
    split <;> exact .of_eq rfl rfl
  | makeServer wired =>
    simp only [begin, beginAttach]
    split
    · exact .of_eq rfl rfl
    · exact (serverOnly_wire s s.nextId 0 wired).trans (.of_eq rfl rfl)
  | _ => exact .of_eq rfl rfl

/-! ### The steps, as `cqs_` sees them -/

inductive OwnStep (s : State cfg τ) : Act τ → State cfg τ → Prop
  | same {a : Act τ} {s' : State cfg τ} : ServerOnly s s' → OwnStep s a s'
  /-- A `post` makes its event. -/
  | create {t : Tid τ} {kind : PostKind} {id i : ℕ} {slot : OptimisiticLockingQueue.PushAnswer}
      {reenters stopped : Bool} : s.frame t = some (.post kind id (.creating i)) →
      OwnStep s (.api t ⟨slot, false, reenters, stopped⟩) (s.postStep t kind id false (.creating i))
  /-- A `stop` shuts a queue down. -/
  | halt {t : Tid τ} {k : ℕ} {q : QueueId} {answer : ApiAnswer} :
      s.frame t = some (.stop (.halting k)) → s.allQueues[k]? = some q →
      OwnStep s (.api t answer)
        ((s.setCq q (s.cq q).shutdown).setFrame t (some (.stop (.halting (k + 1)))))
  /-- A worker takes an event from a queue. -/
  | take {w k i m : ℕ} {c : PassCounts} {q : QueueId} {e : Event} {isOk : Bool}
      {answer : WorkAnswer} : s.worker w = .polling k i c → i < s.setSize k →
      q = s.queueAt k (nextCqIndex w i (s.setSize k)) → (s.cq q).pending[m]? = some e →
      OwnStep s (.work w answer)
        ((s.setCq q { s.cq q with pending := (s.cq q).pending.eraseIdx m }).setWorker w
          (.completing k i c (completionOf isOk e)))

private theorem ownStep_loop {answer : WorkAnswer} (hs : s.ServerHandlers)
    (h : LoopStep s w answer (s.worker w) s') : OwnStep s (.work w answer) s' := by
  generalize hpc : s.worker w = pc at h
  cases h with
  | pollEvent hi _ hq he => exact .take hpc hi hq he
  | complete => exact .same (serverOnly_completeStep hs _ _ _ _ _)
  | run | executeNext => exact .same ((serverOnly_execute s hs _ _ _).trans (.of_eq rfl rfl))
  | stop | pass | stopped | pollNone | pollShutdown | nextSet | polled | leave | stay | popCall
  | pop | popped | missed | ejectCall | eject | ejected | exit => exact .same (.of_eq rfl rfl)

theorem ownStep_of_step (hs : s.ServerHandlers) (h : Step s a s') : OwnStep s a s' := by
  cases h with
  | call => exact .same serverOnly_begin
  | push => exact .same serverOnly_afterPush
  | @post t kind id pc answer hf =>
    rcases answer with ⟨slot, throws, reenters, stopped⟩
    rcases pc with - | (_ | _) | i | can
    · exact .same (.of_eq rfl rfl)
    · exact .same (.of_eq rfl rfl)
    · exact .same (.of_eq rfl rfl)
    · cases throws with
      | false => exact .create hf
      | true => exact .same (.of_eq rfl rfl)
    · exact .same (.of_eq rfl rfl)
  | runWhile _ hrun => cases hrun <;> exact .same (.of_eq rfl rfl)
  | stop hf hstop =>
    cases hstop with
    | halt hq => exact .halt hf hq
    | _ => exact .same (.of_eq rfl rfl)
  | attach _ hat => cases hat <;> exact .same (.of_eq rfl rfl)
  | notify _ hnot => cases hnot <;> exact .same (.of_eq rfl rfl)
  | workEnd => exact .same (serverOnly_workEndStep hs _ _)
  | fatal => exact .same (.of_eq rfl rfl)
  | work _ _ hpc hloop => exact ownStep_loop hs (hpc ▸ hloop)

theorem ServerHandlers.step (hs : s.ServerHandlers) (h : OwnStep s a s') : s'.ServerHandlers := by
  cases h with
  | same hsame => exact hsame.handlers hs
  | create | halt | take => exact hs

theorem serverHandlers_of_reachable (h : (contextSystem cfg τ).Reachable s) :
    s.ServerHandlers := by
  refine h.invariant ?_ fun _ _ _ _ hI _ hs => hI.step (ownStep_of_step hI (step_spec hs).2)
  rintro _ rfl h
  exact ⟨0, 0, rfl⟩

end State

end Sgrpc
