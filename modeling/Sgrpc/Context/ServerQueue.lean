import Mathlib.Data.List.GetD
import Sgrpc.Context.Queues
import Sgrpc.Context.Thunks
import Sgrpc.Context.Attach

/-!
# The completion queues of servers

A handler that has been handed a request makes its successor and, now or in its detached work,
calls `Finish`: both start an operation on its queue, from a worker, with nothing like the
handshake of `post` that would keep `stop` from shutting the queue down in between. Operations are
started behind the `Shutdown()` of a queue only by a handler that was being served at that moment,
or that is handed a request afterwards (`not_late_of_quiet`); both can happen
(`exists_late_server_queue`).
-/

namespace Sgrpc

open Interleaving
open AtomicTaskStealingQueue (PushStep PopStep EjectStep)

/-- The `post(ThunkType)` has not stored its thunk, nor been refused or failed. -/
def PushPc.Carrying : PushPc Thunk → Prop
  | .counted _ | .next _ | .probe _ _ _ => True
  | _ => False

namespace State

variable {cfg : Config} {τ : Type*} {s s' : State cfg τ} {a : Act τ} {t : Tid τ} {w : ℕ}

/-! ### Handlers that are being served -/

/-- The thunk has been posted, and neither executed nor refused. -/
def Outstanding (s : State cfg τ) (f : Thunk) : Prop :=
  (∃ t pc, s.frame t = some (.push f pc) ∧ pc.Carrying) ∨
    ∃ p, p ≠ .executed ∧ f ∈ s.thunkPlaces p

/-- The handler has been handed a request and has not called `Finish` yet. -/
inductive Serving (s : State cfg τ) (h : ℕ) : Prop
  /-- Its `complete` has been entered for a request. -/
  | entered {w k i : ℕ} {c : PassCounts} :
      s.worker w = .completing k i c (.handler h true .entered) →
      (s.handler h).deleteOnNextComplete = false → Serving s h
  /-- Its successor has been made. -/
  | armed {w k i : ℕ} {c : PassCounts} {isOk : Bool} :
      s.worker w = .completing k i c (.handler h isOk .armed) → Serving s h
  /-- Its detached work has not been executed. -/
  | detached {id : ℕ} : s.Outstanding ⟨id, .finish h⟩ → Serving s h
  /-- Its detached work goes on elsewhere. -/
  | suspended : h ∈ s.suspended → Serving s h
  /-- Its detached work completes now. -/
  | resumed {t : Tid τ} : s.frame t = some (.work h) → Serving s h

/-- The step shuts the queue down. -/
def Halts (s : State cfg τ) (a : Act τ) (q : QueueId) : Prop :=
  ∃ t answer k, a = .api t answer ∧ s.frame t = some (.stop (.halting k)) ∧
    s.allQueues[k]? = some q

/-- The step takes the event of a request from the queue, with `is_ok`, and enters the `complete`
of the handler. -/
def Hands (s : State cfg τ) (a : Act τ) (q : QueueId) (h : ℕ) : Prop :=
  ∃ w answer k i c m, a = .work w answer ∧ s.worker w = .polling k i c ∧
    q = s.queueAt k (nextCqIndex w i (s.setSize k)) ∧ answer.next = .gotEvent m true ∧
      (s.cq q).pending[m]? = some (.handler h) ∧ (s.handler h).deleteOnNextComplete = false

/-- A queue is shut down only while none of its handlers is being served, and hands out no request
afterwards. -/
def Quiet (s : State cfg τ) (a : Act τ) : Prop :=
  (∀ q h, s.Halts a q → s.Serving h → (s.handler h).cq ≠ q) ∧
    ∀ q h, s.Hands a q h → (s.cq q).isShutdown = false

/-! ### Making handlers -/

/-- Handlers have been made on queues of the kind `P`, and nothing else has changed. -/
structure Makes (P : QueueId → Prop) (s s' : State cfg τ) : Prop where
  nextHandler : s.nextHandler ≤ s'.nextHandler
  handler : ∀ h < s.nextHandler, s'.handler h = s.handler h
  shutdown : ∀ q, (s'.cq q).isShutdown = (s.cq q).isShutdown
  late : ∀ q, (s'.cq q).late = true → (s.cq q).late = true ∨ ((s.cq q).isShutdown = true ∧ P q)
  pending : ∀ q h, .handler h ∈ (s'.cq q).pending → .handler h ∈ (s.cq q).pending ∨
    (s.nextHandler ≤ h ∧ h < s'.nextHandler ∧ (s'.handler h).cq = q)

theorem Makes.of_eq {P : QueueId → Prop} (hcq : s'.cq = s.cq) (hhandler : s'.handler = s.handler)
    (hnext : s'.nextHandler = s.nextHandler) : Makes P s s' where
  nextHandler := hnext.ge
  handler h _ := by rw [hhandler]
  shutdown q := by rw [hcq]
  late q hq := Or.inl (hcq ▸ hq)
  pending q h hmem := Or.inl (hcq ▸ hmem)

theorem Makes.trans {P : QueueId → Prop} {s'' : State cfg τ} (h : Makes P s s')
    (h' : Makes P s' s'') : Makes P s s'' where
  nextHandler := h.nextHandler.trans h'.nextHandler
  handler n hn := (h'.handler n (hn.trans_le h.nextHandler)).trans (h.handler n hn)
  shutdown q := (h'.shutdown q).trans (h.shutdown q)
  late q hq := by
    rcases h'.late q hq with hq | ⟨hshut, hP⟩
    · exact h.late q hq
    · exact Or.inr ⟨(h.shutdown q).symm.trans hshut, hP⟩
  pending q n hmem := by
    rcases h'.pending q n hmem with hmem | ⟨hle, hlt, hcq⟩
    · refine (h.pending q n hmem).imp id ?_
      rintro ⟨hle, hlt, hcq⟩
      exact ⟨hle, hlt.trans_le h'.nextHandler, by rw [h'.handler n hlt, hcq]⟩
    · exact Or.inr ⟨h.nextHandler.trans hle, hlt, hcq⟩

theorem makes_arm {P : QueueId → Prop} (s : State cfg τ) {q : QueueId} (hq : P q)
    (immediate : Bool) : Makes P s (s.arm q immediate) where
  nextHandler := Nat.le_succ _
  handler h hh := Function.update_of_ne hh.ne ..
  shutdown q' := by
    show (Function.update s.cq q ((s.cq q).start (.handler s.nextHandler)) q').isShutdown = _
    rcases eq_or_ne q' q with rfl | hne
    · rw [Function.update_self]
      rfl
    · rw [Function.update_of_ne hne]
  late q' hl := by
    have hl' : (Function.update s.cq q ((s.cq q).start (.handler s.nextHandler)) q').late = true :=
      hl
    rcases eq_or_ne q' q with rfl | hne
    · rw [Function.update_self] at hl'
      have hor : (s.cq q').late = true ∨ (s.cq q').isShutdown = true := by
        simpa [CompletionQueue.start] using hl'
      exact hor.imp id fun hshut => ⟨hshut, hq⟩
    · rw [Function.update_of_ne hne] at hl'
      exact Or.inl hl'
  pending q' h hmem := by
    have hmem' : .handler h ∈ (Function.update s.cq q ((s.cq q).start (.handler s.nextHandler))
        q').pending := hmem
    rcases eq_or_ne q' q with rfl | hne
    · rw [Function.update_self] at hmem'
      rcases List.mem_append.mp hmem' with hold | hnew
      · exact Or.inl hold
      · have heq : h = s.nextHandler := by simpa using hnew
        refine Or.inr ⟨heq.ge, heq ▸ Nat.lt_succ_self _, ?_⟩
        show (Function.update s.handler s.nextHandler _ h).cq = q'
        rw [heq, Function.update_self]
    · rw [Function.update_of_ne hne] at hmem'
      exact Or.inl hmem'

theorem makes_wireRpcs {P : QueueId → Prop} (s : State cfg τ) {q : QueueId} (hq : P q)
    (wired : List Bool) : Makes P s (s.wireRpcs q wired) := by
  unfold wireRpcs
  induction wired generalizing s with
  | nil => exact .of_eq rfl rfl rfl
  | cons immediate rest ih => exact (makes_arm s hq immediate).trans (ih _)

theorem makes_wire (s : State cfg τ) (id j : ℕ) (wired : List (List Bool)) :
    Makes (fun q => ∃ j, q = .server id j) s (s.wire id j wired) := by
  induction wired generalizing s j with
  | nil => exact .of_eq rfl rfl rfl
  | cons w rest ih => exact (makes_wireRpcs s ⟨j, rfl⟩ w).trans (ih _ _)

/-! ### What a step does to the queues of servers -/

/-- Handlers keep their queues; a queue is shut down by `stop` only; operations are started on the
queue of a server only when it is new, or by a handler that is being served. -/
structure ServeStep (s : State cfg τ) (a : Act τ) (s' : State cfg τ) : Prop where
  nextHandler : s.nextHandler ≤ s'.nextHandler
  handler : ∀ h < s.nextHandler, (s'.handler h).cq = (s.handler h).cq ∧
    ((s'.handler h).deleteOnNextComplete = false → (s.handler h).deleteOnNextComplete = false)
  shutdown : ∀ q, (s'.cq q).isShutdown = true → (s.cq q).isShutdown = true ∨ s.Halts a q
  late : ∀ id j, (s'.cq (.server id j)).late = true → (s.cq (.server id j)).late = true ∨
    ((s.cq (.server id j)).isShutdown = true ∧
      (id = s.nextId ∨ ∃ h, s.Serving h ∧ (s.handler h).cq = .server id j))
  pending : ∀ q h, .handler h ∈ (s'.cq q).pending → .handler h ∈ (s.cq q).pending ∨
    (s.nextHandler ≤ h ∧ h < s'.nextHandler ∧ (s'.handler h).cq = q) ∨
      (s.Serving h ∧ (s.handler h).cq = q)

theorem ServeStep.of_eq (hcq : s'.cq = s.cq) (hhandler : s'.handler = s.handler)
    (hnext : s'.nextHandler = s.nextHandler) : ServeStep s a s' where
  nextHandler := hnext.ge
  handler h _ := by
    rw [hhandler]
    exact ⟨rfl, fun hdel => hdel⟩
  shutdown q hq := Or.inl (hcq ▸ hq)
  late id j hl := Or.inl (hcq ▸ hl)
  pending q h hmem := Or.inl (hcq ▸ hmem)

/-- New handlers are made on queues of new containers, or on the queue of a handler that is being
served; a handler may change otherwise only in that it is deleted next. -/
theorem ServeStep.of_makes {P : QueueId → Prop} {u : State cfg τ} (h : Makes P s u)
    (hP : ∀ id j, P (.server id j) →
      id = s.nextId ∨ ∃ h, s.Serving h ∧ (s.handler h).cq = .server id j)
    (hcq : s'.cq = u.cq) (hnext : s'.nextHandler = u.nextHandler)
    (hhandler : ∀ n, (s'.handler n).cq = (u.handler n).cq ∧
      ((s'.handler n).deleteOnNextComplete = false →
        (u.handler n).deleteOnNextComplete = false)) : ServeStep s a s' where
  nextHandler := hnext ▸ h.nextHandler
  handler n hn := by
    rw [← h.handler n hn]
    exact hhandler n
  shutdown q hq := by
    rw [hcq, h.shutdown q] at hq
    exact Or.inl hq
  late id j hl := by
    rcases h.late _ (hcq ▸ hl) with hold | ⟨hshut, hp⟩
    · exact Or.inl hold
    · exact Or.inr ⟨hshut, hP id j hp⟩
  pending q n hmem := by
    refine (h.pending q n (hcq ▸ hmem)).imp id fun ⟨hle, hlt, hq⟩ => ?_
    exact Or.inl ⟨hle, hnext ▸ hlt, (hhandler n).1.trans hq⟩

/-- An operation of a handler that is being served, or of a `post`, is started on its queue. -/
theorem ServeStep.start {q : QueueId} {e : Event}
    (hcq : s'.cq = Function.update s.cq q ((s.cq q).start e)) (hhandler : s'.handler = s.handler)
    (hnext : s'.nextHandler = s.nextHandler)
    (hq : (∃ h, e = .handler h ∧ s.Serving h ∧ (s.handler h).cq = q) ∨
      ((∃ i, q = .own i) ∧ ∀ h, e ≠ .handler h)) : ServeStep s a s' where
  nextHandler := hnext.ge
  handler h _ := by
    rw [hhandler]
    exact ⟨rfl, fun hdel => hdel⟩
  shutdown q' hshut := by
    rw [hcq] at hshut
    rcases eq_or_ne q' q with rfl | hne
    · rw [Function.update_self] at hshut
      exact Or.inl hshut
    · rw [Function.update_of_ne hne] at hshut
      exact Or.inl hshut
  late id j hl := by
    rw [hcq] at hl
    rcases eq_or_ne (.server id j) q with heq | hne
    · subst heq
      rw [Function.update_self] at hl
      have hor : (s.cq (.server id j)).late = true ∨ (s.cq (.server id j)).isShutdown = true := by
        simpa [CompletionQueue.start] using hl
      refine hor.imp (fun hold => hold) fun hshut => ⟨hshut, Or.inr ?_⟩
      rcases hq with ⟨h, -, hserving, hcq'⟩ | ⟨⟨i, hi⟩, -⟩
      · exact ⟨h, hserving, hcq'⟩
      · cases hi
    · rw [Function.update_of_ne hne] at hl
      exact Or.inl hl
  pending q' h hmem := by
    rw [hcq] at hmem
    rcases eq_or_ne q' q with rfl | hne
    · rw [Function.update_self] at hmem
      rcases List.mem_append.mp hmem with hold | hnew
      · exact Or.inl hold
      · have heq : e = .handler h := (List.mem_singleton.mp hnew).symm
        rcases hq with ⟨h', he, hserving, hcq'⟩ | ⟨-, hnot⟩
        · rw [heq] at he
          cases he
          exact Or.inr (Or.inr ⟨hserving, hcq'⟩)
        · exact absurd heq (hnot h)
    · rw [Function.update_of_ne hne] at hmem
      exact Or.inl hmem

/-- A queue is shut down, or events are taken from it. -/
theorem ServeStep.of_update {q : QueueId} {cq : CompletionQueue}
    (hcq : s'.cq = Function.update s.cq q cq) (hhandler : s'.handler = s.handler)
    (hnext : s'.nextHandler = s.nextHandler) (hlate : cq.late = (s.cq q).late)
    (hpending : ∀ e ∈ cq.pending, e ∈ (s.cq q).pending)
    (hshutdown : cq.isShutdown = true → (s.cq q).isShutdown = true ∨ s.Halts a q) :
    ServeStep s a s' where
  nextHandler := hnext.ge
  handler h _ := by
    rw [hhandler]
    exact ⟨rfl, fun hdel => hdel⟩
  shutdown q' hshut := by
    rw [hcq] at hshut
    rcases eq_or_ne q' q with rfl | hne
    · rw [Function.update_self] at hshut
      exact hshutdown hshut
    · rw [Function.update_of_ne hne] at hshut
      exact Or.inl hshut
  late id j hl := by
    rw [hcq] at hl
    rcases eq_or_ne (.server id j) q with rfl | hne
    · rw [Function.update_self, hlate] at hl
      exact Or.inl hl
    · rw [Function.update_of_ne hne] at hl
      exact Or.inl hl
  pending q' h hmem := by
    rw [hcq] at hmem
    rcases eq_or_ne q' q with rfl | hne
    · rw [Function.update_self] at hmem
      exact Or.inl (hpending _ hmem)
    · rw [Function.update_of_ne hne] at hmem
      exact Or.inl hmem

variable [DecidableEq τ]

private theorem serveStep_begin {c : Call} : ServeStep s a (s.begin t c) := by
  cases c with
  | postAt | resume =>
    simp only [begin]
    split <;> exact .of_eq rfl rfl rfl
  | makeServer wired =>
    simp only [begin, beginAttach]
    split
    · exact .of_eq rfl rfl rfl
    · refine .of_makes (makes_wire s s.nextId 0 wired) ?_ rfl rfl fun n => ⟨rfl, fun hdel => hdel⟩
      rintro id j ⟨k, hk⟩
      cases hk
      exact Or.inl rfl
  | _ => exact .of_eq rfl rfl rfl

private theorem serveStep_complete {k i : ℕ} {c : PassCounts} {what : Completion}
    (hpc : s.worker w = .completing k i c what) :
    ServeStep s a (s.completeStep w k i c what) := by
  rcases what with ⟨⟨id⟩ | ⟨id⟩ | ⟨h⟩, isOk⟩ | ⟨h, isOk, _ | _ | _⟩
  · exact .of_eq rfl rfl rfl
  · exact .of_eq rfl rfl rfl
  · exact .of_eq rfl rfl rfl
  · simp only [completeStep]
    split
    · exact .of_eq rfl rfl rfl
    · next hgo =>
      obtain ⟨hdel, rfl⟩ : (s.handler h).deleteOnNextComplete = false ∧ isOk = true := by
        simpa using hgo
      have hserving : s.Serving h := .entered hpc hdel
      have hmakes : Makes (· = (s.handler h).cq) s
          (s.arm (s.handler h).cq (s.handler h).immediate) :=
        makes_arm (P := (· = (s.handler h).cq)) s rfl _
      refine .of_makes hmakes (fun id j hq => ?_) rfl rfl fun n => ?_
      · exact Or.inr ⟨h, hserving, hq.symm⟩
      · -- only the handler itself has changed
        show (Function.update (s.arm _ _).handler h _ n).cq = _ ∧
          ((Function.update (s.arm _ _).handler h _ n).deleteOnNextComplete = false → _)
        rcases eq_or_ne n h with rfl | hne
        · rw [Function.update_self]
          exact ⟨rfl, fun hdel => by cases hdel⟩
        · rw [Function.update_of_ne hne]
          exact ⟨rfl, fun hdel => hdel⟩
  · simp only [completeStep]
    split
    · exact .start rfl rfl rfl (Or.inl ⟨h, rfl, .armed hpc, rfl⟩)
    · exact .of_eq rfl rfl rfl
  · exact .of_eq rfl rfl rfl

omit [DecidableEq τ] in
private theorem serveStep_execute {f : Thunk} {throws : Bool} {work : WorkEnd} {pc : WorkerPc}
    (hf : f ∈ (s.worker w).thunks) :
    ServeStep s a ((s.execute f throws work).setWorker w pc) := by
  rcases f with ⟨id, _ | _ | h⟩
  · exact .of_eq rfl rfl rfl
  · exact .of_eq rfl rfl rfl
  · have hout : s.Outstanding ⟨id, .finish h⟩ := Or.inr ⟨.hand w, by simp, hf⟩
    have hserving : s.Serving h := .detached hout
    cases work with
    | finished => exact .start rfl rfl rfl (Or.inl ⟨h, rfl, hserving, rfl⟩)
    | stopped | suspended => exact .of_eq rfl rfl rfl

private theorem serveStep_loop {pc : WorkerPc} {answer : WorkAnswer} (hpc : s.worker w = pc)
    (h : LoopStep s w answer pc s') : ServeStep s a s' := by
  cases h with
  | @pollEvent k i c q m e isOk _ _ hq he _ =>
    exact .of_update rfl rfl rfl rfl (fun _ hmem => List.mem_of_mem_eraseIdx hmem) Or.inl
  | complete => exact serveStep_complete hpc
  | @run f => exact serveStep_execute (w := w) (by simp [hpc, WorkerPc.thunks])
  | @executeNext f rest => exact serveStep_execute (w := w) (by simp [hpc, WorkerPc.thunks])
  | stop | pass | stopped | pollNone | pollShutdown | nextSet | polled | leave | stay | popCall
  | pop | popped | missed | ejectCall | eject | ejected | exit => exact .of_eq rfl rfl rfl

theorem serveStep_of_step (h : Step s a s') : ServeStep s a s' := by
  cases h with
  | call => exact serveStep_begin
  | @push _ _ _ _ _ pc' => cases pc' <;> exact .of_eq rfl rfl rfl
  | @post t kind id pc answer hf =>
    rcases answer with ⟨slot, throws, reenters⟩
    rcases pc with - | (_ | _) | i | can
    · exact .of_eq rfl rfl rfl
    · exact .of_eq rfl rfl rfl
    · exact .of_eq rfl rfl rfl
    · cases throws with
      | false =>
        refine .start rfl rfl rfl (Or.inr ⟨⟨i, rfl⟩, fun h => ?_⟩)
        cases kind <;> simp [PostKind.event]
      | true => exact .of_eq rfl rfl rfl
    · exact .of_eq rfl rfl rfl
  | runWhile _ hrun => cases hrun <;> exact .of_eq rfl rfl rfl
  | @stop t _ answer _ hf hstop =>
    cases hstop with
    | @halt k q hq =>
      exact .of_update rfl rfl rfl rfl (fun _ hmem => hmem) fun _ =>
        Or.inr ⟨t, answer, k, rfl, hf, hq⟩
    | _ => exact .of_eq rfl rfl rfl
  | attach _ hat => cases hat <;> exact .of_eq rfl rfl rfl
  | notify _ hnot => cases hnot <;> exact .of_eq rfl rfl rfl
  | @workEnd t h answer hf =>
    simp only [workEndStep]
    split
    · exact .of_eq rfl rfl rfl
    · exact .start rfl rfl rfl (Or.inl ⟨h, rfl, .resumed hf, rfl⟩)
  | fatal => exact .of_eq rfl rfl rfl
  | work _ _ hpc hloop => exact serveStep_loop hpc hloop

/-! ### Works that go on elsewhere -/

/-- A step, as the detached works see it that go on elsewhere. -/
inductive WorkStep (s s' : State cfg τ) : Prop
  | same : s'.suspended = s.suspended →
      (∀ t h, s'.frame t = some (.work h) ↔ s.frame t = some (.work h)) → WorkStep s s'
  /-- A worker has executed the thunk of the work. -/
  | suspend {w id h : ℕ} : ⟨id, .finish h⟩ ∈ (s.worker w).thunks →
      s'.suspended = s.suspended ++ [h] → s'.frame = s.frame → WorkStep s s'
  /-- A thread completes the work next. -/
  | resume {t : Tid τ} {h : ℕ} : s.frame t = none → h ∈ s.suspended →
      s'.suspended = s.suspended.erase h → s'.frame = Function.update s.frame t (some (.work h)) →
      WorkStep s s'
  | complete {t : Tid τ} {h : ℕ} : s.frame t = some (.work h) → s'.suspended = s.suspended →
      s'.frame = Function.update s.frame t none → WorkStep s s'

/-- A thread moves on that completes no detached work, before and after the step. -/
theorem WorkStep.of_frame {f : Option Frame} (hframe : s'.frame = Function.update s.frame t f)
    (hold : ∀ h, s.frame t ≠ some (.work h)) (hnew : ∀ h, f ≠ some (.work h))
    (hsuspended : s'.suspended = s.suspended) : WorkStep s s' := by
  refine .same hsuspended fun u h => ?_
  rw [hframe, update_frame_iff]
  constructor
  · rintro (⟨-, heq⟩ | ⟨-, hu⟩)
    · exact absurd heq (hnew h)
    · exact hu
  · intro hu
    refine Or.inr ⟨?_, hu⟩
    rintro rfl
    exact hold h hu

/-- Every thread stays where it is. -/
theorem WorkStep.of_eq (hframe : s'.frame = s.frame) (hsuspended : s'.suspended = s.suspended) :
    WorkStep s s' :=
  .same hsuspended fun _ _ => by rw [hframe]

private theorem workStep_begin {c : Call} (hidle : s.frame t = none) :
    WorkStep s (s.begin t c) := by
  have hold : ∀ h, s.frame t ≠ some (.work h) := by simp [hidle]
  cases c with
  | postAt now deadline =>
    simp only [begin]
    split <;> exact .of_frame (t := t) rfl hold (by simp) rfl
  | makeServer wired =>
    obtain ⟨cq, handler, nextHandler, hwire⟩ := wire_eq s s.nextId 0 wired
    simp only [begin, beginAttach, hwire]
    split
    · exact .of_eq rfl rfl
    · exact .of_frame (t := t) rfl hold (by simp) rfl
  | resume h =>
    simp only [begin]
    split
    · next hmem => exact .resume hidle hmem rfl rfl
    · exact .of_eq rfl rfl
  | _ => exact .of_frame (t := t) rfl hold (by simp) rfl

private theorem workStep_execute {f : Thunk} {throws : Bool} {work : WorkEnd} {pc : WorkerPc}
    (hf : f ∈ (s.worker w).thunks) : WorkStep s ((s.execute f throws work).setWorker w pc) := by
  rcases f with ⟨id, _ | _ | h⟩
  · exact .of_eq rfl rfl
  · exact .of_eq rfl rfl
  · cases work with
    | finished | stopped => exact .of_eq rfl rfl
    | suspended => exact .suspend hf rfl rfl

private theorem workStep_loop {pc : WorkerPc} {answer : WorkAnswer}
    (hidle : s.frame (.worker w) = none) (hpc : s.worker w = pc)
    (h : LoopStep s w answer pc s') : WorkStep s s' := by
  have hold : ∀ h, s.frame (.worker w) ≠ some (.work h) := by simp [hidle]
  cases h with
  | stop => exact .of_frame (t := .worker w) rfl hold (by simp) rfl
  | @complete _ _ _ what =>
    rcases what with ⟨⟨id⟩ | ⟨id⟩ | ⟨h⟩, isOk⟩ | ⟨h, isOk, _ | _ | _⟩
    · exact .of_eq rfl rfl
    · exact .of_eq rfl rfl
    · exact .of_eq rfl rfl
    · simp only [completeStep]
      split <;> exact .of_eq rfl rfl
    · simp only [completeStep]
      split
      · exact .of_eq rfl rfl
      · exact .of_frame (t := .worker w) rfl hold (by simp) rfl
    · exact .of_eq rfl rfl
  | @run f => exact workStep_execute (w := w) (by simp [hpc, WorkerPc.thunks])
  | @executeNext f rest => exact workStep_execute (w := w) (by simp [hpc, WorkerPc.thunks])
  | pass | stopped | pollNone | pollShutdown | pollEvent | nextSet | polled | leave | stay
  | popCall | pop | popped | missed | ejectCall | eject | ejected | exit => exact .of_eq rfl rfl

theorem workStep_of_step (h : Step s a s') : WorkStep s s' := by
  -- a thread moves on in another member function
  have hother : ∀ {u : State cfg τ} {t : Tid τ} {g f}, s.frame t = some g →
      (∀ h, g ≠ .work h) → u.frame = Function.update s.frame t f → (∀ h, f ≠ some (.work h)) →
      u.suspended = s.suspended → WorkStep s u := by
    intro u t g f hg hnot hframe hf hsuspended
    refine .of_frame hframe (fun h heq => ?_) hf hsuspended
    rw [hg] at heq
    exact hnot h (Option.some.inj heq)
  cases h with
  | call hmay => exact workStep_begin hmay.1
  | @push _ _ _ _ _ pc' _ hf => cases pc' <;> exact hother hf (by simp) rfl (by simp) rfl
  | @post _ _ _ pc answer hf =>
    rcases answer with ⟨slot, _ | _, reenters⟩ <;> rcases pc with - | (_ | _) | i | can <;>
      exact hother hf (by simp) rfl (by simp) rfl
  | runWhile hf hrun => cases hrun <;> exact hother hf (by simp) rfl (by simp) rfl
  | stop hf hstop =>
    cases hstop with
    | yield | selfJoin | abort => exact .of_eq rfl rfl
    | _ => exact hother hf (by simp) rfl (by simp) rfl
  | attach hf hat => cases hat <;> exact hother hf (by simp) rfl (by simp) rfl
  | notify hf hnot => cases hnot <;> exact hother hf (by simp) rfl (by simp) rfl
  | @workEnd t h answer hf =>
    obtain ⟨cq, hend⟩ := workEndStep_eq s t h answer.stopped
    rw [hend]
    exact .complete hf rfl rfl
  | fatal => exact .of_eq rfl rfl
  | work _ hidle hpc hloop => exact workStep_loop hidle hpc hloop

/-- A work goes on elsewhere when it did so before, or when its thunk has been executed. -/
theorem WorkStep.suspended (hs : WorkStep s s') {h : ℕ} (hh : h ∈ s'.suspended) :
    h ∈ s.suspended ∨ ∃ w id, ⟨id, .finish h⟩ ∈ (s.worker w).thunks := by
  cases hs with
  | same heq => exact Or.inl (heq ▸ hh)
  | @suspend w id n hmem heq =>
    rw [heq] at hh
    rcases List.mem_append.mp hh with hold | hnew
    · exact Or.inl hold
    · rw [List.mem_singleton.mp hnew]
      exact Or.inr ⟨w, id, hmem⟩
  | resume _ _ heq => exact Or.inl (List.mem_of_mem_erase (heq ▸ hh))
  | complete _ heq => exact Or.inl (heq ▸ hh)

/-- A work that completes now has gone on elsewhere. -/
theorem WorkStep.resumed (hs : WorkStep s s') {h : ℕ} (hf : s'.frame t = some (.work h)) :
    s.frame t = some (.work h) ∨ h ∈ s.suspended := by
  cases hs with
  | same _ hframe => exact Or.inl ((hframe t h).mp hf)
  | suspend _ _ hframe => exact Or.inl (hframe ▸ hf)
  | resume _ hmem _ hframe =>
    rw [hframe, update_frame_iff] at hf
    rcases hf with ⟨-, heq⟩ | ⟨-, hf⟩
    · cases heq
      exact Or.inr hmem
    · exact Or.inl hf
  | complete _ _ hframe =>
    rw [hframe, update_frame_iff] at hf
    rcases hf with ⟨-, heq⟩ | ⟨-, hf⟩
    · cases heq
    · exact Or.inl hf

/-! ### Who is being served after a step -/

/-- A thunk that is outstanding was so before, or is the detached work of a handler whose
successor has been made. -/
theorem ThunkStep.outstanding (hs : ThunkStep s s') (hpushes : s.PushesOk) {f : Thunk}
    (hf : s'.Outstanding f) : s.Outstanding f ∨ ∀ h, f.body = .finish h →
      ∃ w k i c isOk, s.worker w = .completing k i c (.handler h isOk .armed) := by
  -- where the frames and the places are the same
  have hkeep : (∀ t pc, s'.frame t = some (.push f pc) → pc.Carrying →
        ∃ u pc', s.frame u = some (.push f pc') ∧ pc'.Carrying) →
      (∀ p, p ≠ .executed → f ∈ s'.thunkPlaces p → s.Outstanding f) → s.Outstanding f := by
    intro hframes hplaces
    rcases hf with ⟨t, pc, ht, hpc⟩ | ⟨p, hp, hmem⟩
    · exact Or.inl (hframes t pc ht hpc)
    · exact hplaces p hp hmem
  cases hs with
  | same hsame hplaces =>
    refine Or.inl (hkeep (fun t pc ht hpc => ⟨t, pc, (hsame.push t f pc).mp ht, hpc⟩) ?_)
    exact fun p hp hmem => Or.inr ⟨p, hp, hplaces ▸ hmem⟩
  | @call t body _ hidle harmed hframe _ _ _ hplaces =>
    rcases hf with ⟨u, pc, hu, hpc⟩ | ⟨p, hp, hmem⟩
    · rw [hframe, update_frame_iff] at hu
      rcases hu with ⟨-, heq⟩ | ⟨-, hu⟩
      · cases heq
        exact Or.inr harmed
      · exact Or.inl (Or.inl ⟨u, pc, hu, hpc⟩)
    · exact Or.inl (Or.inr ⟨p, hp, hplaces ▸ hmem⟩)
  | @push t g pc pc' q' ev hg hpush =>
    left
    have hsays := (hpushes.running t g pc hg).2.2
    -- the call goes on with its thunk, or is over
    have hgo : ∀ {u : State cfg τ} {fr}, u.frame = Function.update s.frame t fr →
        (∀ g' pc'', fr = some (.push g' pc'') → pc''.Carrying → g' = g ∧ pc.Carrying) →
        ∀ v pc'', u.frame v = some (.push f pc'') → pc''.Carrying →
          ∃ v pc', s.frame v = some (.push f pc') ∧ pc'.Carrying := by
      intro u fr hframe hnew v pc'' hv hcarry
      rw [hframe, update_frame_iff] at hv
      rcases hv with ⟨-, heq⟩ | ⟨-, hv⟩
      · obtain ⟨rfl, hpc⟩ := hnew f pc'' heq hcarry
        exact ⟨t, pc, hg, hpc⟩
      · exact ⟨v, pc'', hv, hcarry⟩
    cases hpush with
    | refuse | throw | leave =>
      refine hkeep (hgo rfl fun g' pc'' heq hcarry => ?_) fun p hp hmem => Or.inr ⟨p, hp, hmem⟩
      cases heq <;> exact absurd hcarry id
    | accept | fetch | wrap | busy =>
      refine hkeep (hgo rfl fun g' pc'' heq hcarry => ?_) fun p hp hmem => Or.inr ⟨p, hp, hmem⟩
      cases heq
      exact ⟨rfl, trivial⟩
    | @store g' o i j =>
      obtain ⟨rfl, -⟩ := hsays
      refine hkeep (hgo rfl fun g'' pc'' heq hcarry => ?_) fun p hp hmem => ?_
      · cases heq
        exact absurd hcarry id
      · -- the thunk has moved from the call into a sub-queue
        rcases p with k | v | _
        · have hmem' : f ∈ Function.update s.taskQueue.queues j
              (s.taskQueue.queues j ++ [g']) k := hmem
          rcases eq_or_ne k j with rfl | hk
          · rw [Function.update_self] at hmem'
            rcases List.mem_append.mp hmem' with hold | hnew
            · exact Or.inr ⟨.subQueue k, by simp, hold⟩
            · rw [List.mem_singleton.mp hnew]
              exact Or.inl ⟨t, _, hg, trivial⟩
          · rw [Function.update_of_ne hk] at hmem'
            exact Or.inr ⟨.subQueue k, by simp, hmem'⟩
        · exact Or.inr ⟨.hand v, by simp, hmem⟩
        · exact absurd rfl hp
  | @collect w j fs _ hsame hmoved =>
    refine Or.inl (hkeep (fun t pc ht hpc => ⟨t, pc, (hsame.push t f pc).mp ht, hpc⟩) ?_)
    intro p hp hmem
    rcases hmoved.mem_cases hmem with hold | ⟨-, hnew⟩
    · exact Or.inr ⟨p, hp, hold⟩
    · exact Or.inr ⟨.subQueue j, by simp, hmoved.mem_source.mpr (Or.inl hnew)⟩
  | @execute w g throws _ hsame hmoved =>
    refine Or.inl (hkeep (fun t pc ht hpc => ⟨t, pc, (hsame.push t f pc).mp ht, hpc⟩) ?_)
    intro p hp hmem
    rcases hmoved.mem_cases hmem with hold | ⟨rfl, -⟩
    · exact Or.inr ⟨p, hp, hold⟩
    · exact absurd rfl hp

/-- How a worker gets into the `complete` of a handler. -/
theorem completing_of_loopStep {pc : WorkerPc} {answer : WorkAnswer} {k i h : ℕ} {c : PassCounts}
    {isOk : Bool} {stage : Stage} (hs : LoopStep s w answer pc s')
    (hw : s'.worker w = .completing k i c (.handler h isOk stage)) :
    (stage = .entered ∧ ∃ q m, pc = .polling k i c ∧
        q = s.queueAt k (nextCqIndex w i (s.setSize k)) ∧ answer.next = .gotEvent m isOk ∧
          (s.cq q).pending[m]? = some (.handler h)) ∨
      (stage = .armed ∧ pc = .completing k i c (.handler h true .entered) ∧
        (s.handler h).deleteOnNextComplete = false) ∨
      (stage = .posting ∧ pc = .completing k i c (.handler h isOk .armed)) := by
  have hself : ∀ {u : State cfg τ} {pc'}, u.worker = Function.update s.worker w pc' →
      u.worker w = .completing k i c (.handler h isOk stage) →
      pc' = .completing k i c (.handler h isOk stage) := by
    intro u pc' hworker hu
    rwa [hworker, Function.update_self] at hu
  cases hs with
  | @pollEvent _ _ _ q m e _ _ _ hq he hanswer =>
    have heq := hself rfl hw
    rcases e with id | id | n
    · cases heq
    · cases heq
    · cases heq
      exact Or.inl ⟨rfl, q, m, rfl, hq, hanswer, he⟩
  | @complete _ _ _ what =>
    rcases what with ⟨⟨id⟩ | ⟨id⟩ | ⟨n⟩, isOk'⟩ | ⟨n, isOk', _ | _ | _⟩
    · cases hself rfl hw
    · cases hself rfl hw
    · cases hself rfl hw
    · simp only [completeStep] at hw
      split at hw
      · cases hself rfl hw
      · next hgo =>
        obtain ⟨hdel, rfl⟩ : (s.handler n).deleteOnNextComplete = false ∧ isOk' = true := by
          simpa using hgo
        cases hself rfl hw
        exact Or.inr (Or.inl ⟨rfl, rfl, hdel⟩)
    · simp only [completeStep] at hw
      split at hw
      · cases hself rfl hw
      · cases hself rfl hw
        exact Or.inr (Or.inr ⟨rfl, rfl⟩)
    · cases hself rfl hw
  | run | executeNext => cases hself worker_execute hw
  | stop | pass | stopped | pollNone | pollShutdown | nextSet | polled | leave | stay | popCall
  | pop | popped | missed | ejectCall | eject | ejected | exit => cases hself rfl hw

/-- How a worker gets into the `complete` of a handler, for any step. -/
theorem completing_of_step (hs : Step s a s') {k i h : ℕ} {c : PassCounts} {isOk : Bool}
    {stage : Stage} (hw : s'.worker w = .completing k i c (.handler h isOk stage)) :
    s.worker w = .completing k i c (.handler h isOk stage) ∨
      (stage = .entered ∧ ∃ answer q m, a = .work w answer ∧ s.worker w = .polling k i c ∧
        q = s.queueAt k (nextCqIndex w i (s.setSize k)) ∧ answer.next = .gotEvent m isOk ∧
          (s.cq q).pending[m]? = some (.handler h)) ∨
      (stage = .armed ∧ s.worker w = .completing k i c (.handler h true .entered) ∧
        (s.handler h).deleteOnNextComplete = false) ∨
      (stage = .posting ∧ s.worker w = .completing k i c (.handler h isOk .armed)) := by
  rcases loop_of_step hs with hsame | ⟨v, answer, rfl, -, -, hloop⟩
  · exact Or.inl (hsame.worker ▸ hw)
  · rcases eq_or_ne w v with rfl | hv
    · rcases completing_of_loopStep hloop hw with
        ⟨hst, q, m, hpc, hq, hnext, he⟩ | harmed | hposting
      · exact Or.inr (Or.inl ⟨hst, answer, q, m, rfl, hpc, hq, hnext, he⟩)
      · exact Or.inr (Or.inr (Or.inl harmed))
      · exact Or.inr (Or.inr (Or.inr hposting))
    · obtain ⟨pc', hpc'⟩ := worker_of_loopStep hloop
      rw [hpc', Function.update_of_ne hv] at hw
      exact Or.inl hw

/-! ### Containers and their numbers -/

/-- The numbers of containers have been handed out, and only known queues have been shut down. -/
structure ContainersOk (s : State cfg τ) : Prop where
  attached : ∀ server ∈ s.servers, server.id < s.nextId
  attaching : ∀ t server pc, s.frame t = some (.attach server pc) → server.id < s.nextId
  shutdown : ∀ id j, (s.cq (.server id j)).isShutdown = true → id < s.nextId

omit [DecidableEq τ] in
/-- The queues that `stop` shuts down are those of the context and of the attached servers. -/
theorem mem_allQueues {q : QueueId} (h : q ∈ s.allQueues) :
    (∃ i, q = .own i) ∨ ∃ server ∈ s.servers, ∃ j, q = .server server.id j := by
  obtain ⟨k, hk, hq⟩ := List.mem_flatMap.mp h
  obtain ⟨j, -, rfl⟩ := List.mem_map.mp hq
  cases k with
  | zero => exact Or.inl ⟨j, rfl⟩
  | succ k =>
    have hlt : k < s.servers.length := by simpa using hk
    refine Or.inr ⟨s.servers[k], List.getElem_mem hlt, j, ?_⟩
    rw [queueAt, List.getD_eq_getElem _ _ hlt]

theorem containersOk_of_reachable (h : (contextSystem cfg τ).Reachable s) : s.ContainersOk where
  attached := (attachOk_of_reachable h).attached
  attaching := (attachOk_of_reachable h).fresh
  shutdown := by
    refine h.invariant
      (I := fun u => ∀ id j, (u.cq (.server id j)).isShutdown = true → id < u.nextId) ?_
      fun u a u' hr hI _ hs id j hshut => ?_
    · rintro _ rfl _ _ hshut
      cases hshut
    · have hstep := (step_spec hs).2
      have hid := nextId_of_step hstep
      rcases (serveStep_of_step hstep).shutdown _ hshut with hold | ⟨t, answer, k, -, -, hq⟩
      · exact (hI id j hold).trans_le hid
      · rcases mem_allQueues (List.mem_of_getElem? hq) with ⟨i, heq⟩ | ⟨server, hmem, j', heq⟩
        · cases heq
        · cases heq
          exact ((attachOk_of_reachable hr).attached server hmem).trans_le hid

/-! ### Which handlers are known -/

/-- Every handler that anybody refers to has been made, and its events are on its queue. -/
structure ServersOk (s : State cfg τ) : Prop where
  pending : ∀ q h, .handler h ∈ (s.cq q).pending → (s.handler h).cq = q ∧ h < s.nextHandler
  hand : ∀ w k i c h isOk stage,
    s.worker w = .completing k i c (.handler h isOk stage) → h < s.nextHandler
  detached : ∀ id h, s.Outstanding ⟨id, .finish h⟩ → h < s.nextHandler
  suspended : ∀ h ∈ s.suspended, h < s.nextHandler
  resumed : ∀ t h, s.frame t = some (.work h) → h < s.nextHandler

omit [DecidableEq τ] in
theorem ServersOk.lt (h : s.ServersOk) {n : ℕ} (hn : s.Serving n) : n < s.nextHandler := by
  cases hn with
  | entered hw => exact h.hand _ _ _ _ _ _ _ hw
  | armed hw => exact h.hand _ _ _ _ _ _ _ hw
  | detached hf => exact h.detached _ _ hf
  | suspended hn => exact h.suspended _ hn
  | resumed hf => exact h.resumed _ _ hf

theorem ServersOk.step (h : s.ServersOk) (hpushes : s.PushesOk) (hclean : ∀ w, (s.worker w).Clean)
    (hs : Step s a s') : s'.ServersOk := by
  have hserve := serveStep_of_step hs
  have hwork := workStep_of_step hs
  refine ⟨fun q n hmem => ?_, fun w k i c n isOk stage hw => ?_, fun id n hf => ?_,
    fun n hn => ?_, fun t n hf => ?_⟩
  · rcases hserve.pending q n hmem with hold | ⟨-, hlt, hcq⟩ | ⟨hserving, hcq⟩
    · obtain ⟨hcq, hlt⟩ := h.pending q n hold
      exact ⟨(hserve.handler n hlt).1.trans hcq, hlt.trans_le hserve.nextHandler⟩
    · exact ⟨hcq, hlt⟩
    · have hlt := h.lt hserving
      exact ⟨(hserve.handler n hlt).1.trans hcq, hlt.trans_le hserve.nextHandler⟩
  · refine lt_of_lt_of_le ?_ hserve.nextHandler
    rcases completing_of_step hs hw with hold | ⟨-, answer, q, m, -, -, -, -, he⟩ | ⟨-, hold, -⟩ |
      ⟨-, hold⟩
    · exact h.hand w k i c n isOk stage hold
    · exact (h.pending q n (List.mem_of_getElem? he)).2
    · exact h.hand w k i c n true .entered hold
    · exact h.hand w k i c n isOk .armed hold
  · refine lt_of_lt_of_le ?_ hserve.nextHandler
    rcases (thunkStep_of_step hclean hs).outstanding hpushes hf with hold | harmed
    · exact h.detached id n hold
    · obtain ⟨w, k, i, c, isOk, hw⟩ := harmed n rfl
      exact h.hand w k i c n isOk .armed hw
  · refine lt_of_lt_of_le ?_ hserve.nextHandler
    rcases hwork.suspended hn with hold | ⟨w, id, hmem⟩
    · exact h.suspended n hold
    · exact h.detached id n (Or.inr ⟨.hand w, by simp, hmem⟩)
  · refine lt_of_lt_of_le ?_ hserve.nextHandler
    rcases hwork.resumed hf with hold | hmem
    · exact h.resumed t n hold
    · exact h.suspended n hmem

theorem serversOk_of_reachable (h : (contextSystem cfg τ).Reachable s) : s.ServersOk := by
  refine h.invariant ?_ fun _ _ _ hr hI _ hs =>
    hI.step (pushesOk_of_reachable hr) (clean_of_reachable hr) (step_spec hs).2
  rintro _ rfl
  refine ⟨fun _ _ hmem => ?_, fun _ _ _ _ _ _ _ hw => ?_, fun _ _ hf => ?_, fun _ hmem => ?_,
    fun _ _ hf => ?_⟩
  · cases hmem
  · cases hw
  · rcases hf with ⟨_, _, hf, -⟩ | ⟨p | p | p, -, hmem⟩
    · cases hf
    · cases hmem
    · cases hmem
    · cases hmem
  · cases hmem
  · cases hf

/-- A handler that is being served was so before, or has just been handed a request. -/
theorem serving_of_step (h : s.ServersOk) (hpushes : s.PushesOk)
    (hclean : ∀ w, (s.worker w).Clean) (hs : Step s a s') {n : ℕ} (hn : s'.Serving n) :
    s.Serving n ∨ ∃ q, s.Hands a q n := by
  have hserve := serveStep_of_step hs
  cases hn with
  | @entered w k i c hw hdel =>
    rcases completing_of_step hs hw with hold | ⟨-, answer, q, m, ha, hpc, hq, hnext, he⟩ |
      ⟨heq, -⟩ | ⟨heq, -⟩
    · have hlt := h.hand w k i c n true .entered hold
      exact Or.inl (.entered hold ((hserve.handler n hlt).2 hdel))
    · have hlt := (h.pending q n (List.mem_of_getElem? he)).2
      exact Or.inr ⟨q, w, answer, k, i, c, m, ha, hpc, hq, hnext, he,
        (hserve.handler n hlt).2 hdel⟩
    · cases heq
    · cases heq
  | @armed w k i c isOk hw =>
    left
    rcases completing_of_step hs hw with hold | ⟨heq, -⟩ | ⟨-, hold, hdel⟩ | ⟨heq, -⟩
    · exact .armed hold
    · cases heq
    · exact .entered hold hdel
    · cases heq
  | detached hf =>
    left
    rcases (thunkStep_of_step hclean hs).outstanding hpushes hf with hold | harmed
    · exact .detached hold
    · obtain ⟨w, k, i, c, isOk, hw⟩ := harmed n rfl
      exact .armed hw
  | suspended hn =>
    left
    rcases (workStep_of_step hs).suspended hn with hold | ⟨w, id, hmem⟩
    · exact .suspended hold
    · have hout : s.Outstanding ⟨id, .finish n⟩ := Or.inr ⟨.hand w, by simp, hmem⟩
      exact .detached hout
  | resumed hf =>
    left
    rcases (workStep_of_step hs).resumed hf with hold | hmem
    · exact .resumed hold
    · exact .suspended hmem

/-! ### Operations behind `Shutdown()` -/

/-- The handlers being served have open queues, and no operation has been started on a queue of a
server behind its `Shutdown()`. -/
structure QuietOk (s : State cfg τ) : Prop where
  serving : ∀ h, s.Serving h → (s.cq (s.handler h).cq).isShutdown = false
  late : ∀ id j, (s.cq (.server id j)).late = false

theorem QuietOk.step (h : s.QuietOk) (hservers : s.ServersOk) (hcontainers : s.ContainersOk)
    (hpushes : s.PushesOk) (hclean : ∀ w, (s.worker w).Clean) (hquiet : s.Quiet a)
    (hs : Step s a s') : s'.QuietOk := by
  have hserve := serveStep_of_step hs
  constructor
  · intro n hn
    rw [Bool.eq_false_iff]
    intro hshut
    rcases serving_of_step hservers hpushes hclean hs hn with hserving | ⟨q, hhands⟩
    · rw [(hserve.handler n (hservers.lt hserving)).1] at hshut
      rcases hserve.shutdown _ hshut with hold | hhalts
      · rw [h.serving n hserving] at hold
        cases hold
      · exact hquiet.1 _ n hhalts hserving rfl
    · have hopen := hquiet.2 q n hhands
      obtain ⟨w, answer, k, i, c, m, rfl, -, -, -, he, -⟩ := hhands
      obtain ⟨hcq, hlt⟩ := hservers.pending q n (List.mem_of_getElem? he)
      rw [(hserve.handler n hlt).1, hcq] at hshut
      rcases hserve.shutdown q hshut with hold | ⟨t, answer', k', heq, -⟩
      · rw [hopen] at hold
        cases hold
      · cases heq
  · intro id j
    rw [Bool.eq_false_iff]
    intro hlate
    rcases hserve.late id j hlate with hold | ⟨hshut, rfl | ⟨n, hserving, hcq⟩⟩
    · rw [h.late id j] at hold
      cases hold
    · -- the queues of a new container are open
      exact absurd (hcontainers.shutdown _ j hshut) (Nat.lt_irrefl _)
    · have hopen := h.serving n hserving
      rw [hcq, hshut] at hopen
      cases hopen

/-- **No operation is started on a shut-down queue of a server** in a run in which a queue is shut
down only while none of its handlers is being served, and hands out no request with `is_ok`
afterwards. -/
theorem not_late_of_quiet (h : (contextSystem cfg τ).ReachableUnder Quiet s) :
    ∀ id j, (s.cq (.server id j)).late = false := by
  have hok : s.QuietOk := by
    refine h.invariant ?_ fun _ _ _ hr hI hP hs => hI.step (serversOk_of_reachable hr.reachable)
      (containersOk_of_reachable hr.reachable) (pushesOk_of_reachable hr.reachable)
      (clean_of_reachable hr.reachable) hP (step_spec hs).2
    rintro _ rfl
    refine ⟨fun n hn => ?_, fun _ _ => rfl⟩
    rfl
  exact hok.late

/-- A client makes a container with one work queue, on which it wires one handler. -/
def makeServerCalls : List (Act Unit) :=
  .call (.client ()) (.makeServer [[true]]) :: List.replicate 4 (go (.client ()))

/-- Worker `0` is handed the event of that handler, with `is_ok`. -/
def handTurns : List (Act Unit) :=
  List.replicate 3 (.work 0 ⟨false, .timeout, true, false, .finished⟩) ++
    [.work 0 ⟨false, .gotEvent 0 true, true, false, .finished⟩]

/-- The only worker is at the head of its loop, no thunk is around and no detached work goes on, and
the client is in `stop`. -/
def resting (s : State cfg Unit) : Bool :=
  s.created ≤ 1 && s.worker 0 = .top && s.frame (.worker 0) = none && s.suspended = [] &&
    (List.range cfg.nTaskQueues).all (fun j => s.taskQueue.queues j = []) &&
    match s.frame (.client ()) with
    | some (.stop _) => true
    | _ => false

/-- Nobody is being served then. -/
theorem not_serving_of_resting {s : State cfg Unit} (h : (contextSystem cfg Unit).Reachable s)
    (hrest : s.resting = true) (n : ℕ) : ¬ s.Serving n := by
  simp only [resting, Bool.and_eq_true, decide_eq_true_eq, List.all_eq_true, List.mem_range]
    at hrest
  obtain ⟨⟨⟨⟨⟨hcreated, hw⟩, hidle⟩, hsuspended⟩, hqueues⟩, hclient⟩ := hrest
  have htop : ∀ w, s.worker w = .top := by
    intro w
    rcases Nat.eq_zero_or_pos w with rfl | hpos
    · exact hw
    · exact worker_of_not_created h (by omega)
  -- the only thread in a member function is in `stop`
  have hstop : ∀ t f, s.frame t = some f → ∃ pc, f = .stop pc := by
    rintro (t | w) f hf
    · rw [hf] at hclient
      cases f with
      | stop pc => exact ⟨pc, rfl⟩
      | _ => cases hclient
    · obtain rfl : w = 0 := by
        have hlt := (calling_of_reachable h hf).1
        omega
      rw [hidle] at hf
      cases hf
  intro hn
  cases hn with
  | @entered w _ _ _ hpc =>
    rw [htop w] at hpc
    cases hpc
  | @armed w _ _ _ _ hpc =>
    rw [htop w] at hpc
    cases hpc
  | detached hf =>
    rcases hf with ⟨t, pc, hf, -⟩ | ⟨j | w | _, hne, hmem⟩
    · obtain ⟨_, heq⟩ := hstop t _ hf
      cases heq
    · have hmem' : _ ∈ s.taskQueue.queues j := hmem
      have hj := (probesOk_of_reachable h).used j (List.ne_nil_of_mem hmem')
      rw [hqueues j hj] at hmem'
      cases hmem'
    · have hmem' : _ ∈ (s.worker w).thunks := hmem
      rw [htop w] at hmem'
      cases hmem'
    · exact hne rfl
  | suspended hmem =>
    rw [hsuspended] at hmem
    cases hmem
  | resumed hf =>
    obtain ⟨_, heq⟩ := hstop _ _ hf
    cases heq

/-- The step neither shuts a queue down nor takes an event with `is_ok`. -/
def calm (s : State cfg τ) : Act τ → Bool
  | .api t _ =>
      match s.frame t with
      | some (.stop (.halting k)) => s.allQueues[k]? = none
      | _ => true
  | .work _ answer =>
      match answer.next with
      | .gotEvent _ true => false
      | _ => true
  | .call _ _ => true

omit [DecidableEq τ] in
theorem quiet_of_calm (s : State cfg τ) (a : Act τ) (h : s.calm a = true) : s.Quiet a := by
  constructor
  · rintro q n ⟨t, answer, k, rfl, hf, hq⟩
    simp [calm, hf, hq] at h
  · rintro q n ⟨w, answer, k, i, c, m, rfl, -, -, hnext, -⟩
    simp [calm, hnext] at h

omit [DecidableEq τ] in
/-- A queue may be shut down while nobody is being served. -/
theorem quiet_of_not_serving (h : ∀ n, ¬ s.Serving n) (answer : ApiAnswer) :
    s.Quiet (.api t answer) := by
  refine ⟨fun q n _ hn => absurd hn (h n), ?_⟩
  rintro q n ⟨w, answer', k, i, c, m, heq, -⟩
  cases heq

theorem not_late_of_quiet_calm : ∃ s : State oneThread Unit,
    (s.handler 0).deleteOnNextComplete = true ∧ (s.cq (.server 0 0)).isShutdown = true ∧
      ∀ id j, (s.cq (.server id j)).late = false := by
  let S := contextSystem oneThread Unit
  -- a request is handed to the handler
  let s₁ := (S.execWhile calm .initial (makeServerCalls ++ runCalls ++ handTurns.take 3)).get
    (by decide)
  have hs₁ : S.ReachableUnder Quiet s₁ :=
    System.ReachableUnder.execWhile quiet_of_calm (.init rfl) (Option.some_get _).symm
  let s₂ := (S.step s₁ (.work 0 ⟨false, .gotEvent 0 true, true, false, .finished⟩)).get (by decide)
  have hquiet : s₁.Quiet (.work 0 ⟨false, .gotEvent 0 true, true, false, .finished⟩) := by
    constructor
    · rintro q n ⟨t, answer, k, ⟨⟩, -⟩
    · rintro q n ⟨w, answer, k, i, c, m, ⟨⟩, hpc, rfl, -⟩
      have hpc₁ : s₁.worker 0 = .polling 1 0 ⟨0, 0, 2, 0⟩ := by decide
      rw [hpc₁] at hpc
      cases hpc
      decide
  have hs₂ : S.ReachableUnder Quiet s₂ := hs₁.step hquiet (Option.some_get _).symm
  -- it serves the request, and `stop` is called when the worker has gone through its loop
  let s₃ := (S.execWhile calm s₂ (List.replicate 9 (turn false) ++
    .call (.client ()) .stop :: List.replicate 2 (go (.client ())))).get (by decide)
  have hs₃ : S.ReachableUnder Quiet s₃ :=
    System.ReachableUnder.execWhile quiet_of_calm hs₂ (Option.some_get _).symm
  have hrest : ∀ n, ¬ s₃.Serving n := not_serving_of_resting hs₃.reachable (by decide +kernel)
  let s₄ := (S.step s₃ (go (.client ()))).get (by decide +kernel)
  have hs₄ : S.ReachableUnder Quiet s₄ :=
    hs₃.step (quiet_of_not_serving hrest _) (Option.some_get _).symm
  have hrest₄ : ∀ n, ¬ s₄.Serving n := not_serving_of_resting hs₄.reachable (by decide +kernel)
  let s := (S.step s₄ (go (.client ()))).get (by decide +kernel)
  have hs : S.ReachableUnder Quiet s :=
    hs₄.step (quiet_of_not_serving hrest₄ _) (Option.some_get _).symm
  exact ⟨s, by decide +kernel, by decide +kernel, not_late_of_quiet hs⟩

/-- A request is handed to a handler, `stop` shuts the queue down, and the handler makes its
successor there. -/
theorem exists_late_server_queue : ¬ ∀ (cfg : Config) (s : State cfg Unit),
    (contextSystem cfg Unit).Reachable s → ∀ id j, (s.cq (.server id j)).late = false := by
  intro hall
  let S := contextSystem oneThread Unit
  let s := (S.exec .initial (makeServerCalls ++ runCalls ++ handTurns ++
    .call (.client ()) .stop :: List.replicate 4 (go (.client ())) ++ [turn false])).get (by decide)
  have hs : S.Reachable s := System.reachable_of_exec rfl (Option.some_get _).symm
  exact absurd (hall oneThread s hs 0 0) (by decide)

end State

end Sgrpc
