import Sgrpc.Context.MakeServer

/-!
# How the handlers of servers are passed on

A `ServerRpcHandler` is a raw pointer that is passed around: its queue holds it as a tag, the
worker that is handed the event runs its `complete`, its detached work refers to it, on a worker or
elsewhere, and it deletes itself. These are its places (`HandlerPlace`), and from place to place a
handler only moves on (`Advances`).

An observer (`handledSystem`) records which handlers make a successor, call `Finish` and are
deleted, and those that nobody refers to any more: their detached work has been refused by a closed
task queue, or has been stopped. A step leaves all handlers where they are, wires a new container,
moves handlers from one place to the next, or makes a successor (`handlerChange_of_step`).
-/

namespace Sgrpc

open Interleaving
open AtomicTaskStealingQueue (PushStep PopStep EjectStep)

/-! ### The places -/

/-- The handler whose event it is. -/
def Event.handler? : Event → Option ℕ
  | .handler h => some h
  | _ => none

/-- The handler whose detached work the thunk is. -/
def Thunk.handler? (f : Thunk) : Option ℕ :=
  match f.body with
  | .finish h => some h
  | _ => none

namespace WorkerPc

/-- The handler whose `complete` has just been entered. -/
def entered : WorkerPc → List ℕ
  | .completing _ _ _ (.handler h _ .entered) => [h]
  | _ => []

/-- The handler that has made its successor and not handed its work on. -/
def armed : WorkerPc → List ℕ
  | .completing _ _ _ (.handler h _ .armed) => [h]
  | _ => []

/-- The handler whose detached work is executed next. -/
def executes : WorkerPc → List ℕ
  | .running f | .executing (f :: _) => f.handler?.toList
  | _ => []

/-- The worker is in the `complete` of a handler, or executes a thunk. -/
def Handles : WorkerPc → Prop
  | .completing _ _ _ (.handler _ _ .entered) | .completing _ _ _ (.handler _ _ .armed)
  | .running _ | .executing (_ :: _) => True
  | _ => False

/-- The worker has left its loop and executes what it has ejected. -/
def PastLoop : WorkerPc → Bool
  | .executing _ => true
  | _ => false

end WorkerPc

/-- The handler whose detached work is being posted. -/
def posting : Option Frame → List ℕ
  | some (.push f (.counted _)) | some (.push f (.next _)) | some (.push f (.probe _ _ _)) =>
      f.handler?.toList
  | _ => []

/-- The handler whose detached work completes next, having gone on elsewhere. -/
def resumed : Option Frame → List ℕ
  | some (.work h) => [h]
  | _ => []

/-- Where a handler can be. -/
inductive HandlerPlace (τ : Type*) where
  | queue (q : QueueId)
  | entered (w : ℕ)
  | armed (w : ℕ)
  /-- Its work is in the `post` of the thread. -/
  | posting (t : Tid τ)
  /-- Its work is in a sub-queue of the task queue. -/
  | subQueue (j : ℕ)
  /-- Its work is in the hands of a worker. -/
  | hand (w : ℕ)
  /-- Its work goes on elsewhere. -/
  | suspended
  /-- Its work completes on the thread, having gone on elsewhere. -/
  | resumed (t : Tid τ)
  | deleted
  /-- Its work has been refused: nobody refers to the handler any more. -/
  | dropped
  /-- Its work has been stopped: nobody refers to the handler any more. -/
  | stopped

/-- What an observer has seen of the handlers. -/
structure HandlerLog where
  deleted : List ℕ
  dropped : List ℕ
  stopped : List ℕ
  /-- Those that have made their successors. -/
  served : List ℕ
  /-- Those that have called `Finish`. -/
  finished : List ℕ
  /-- Those whose detached work has called `Finish` on a worker after its last pass, or elsewhere
  when their queue had been shut down. -/
  late : List ℕ

/-- Nothing has been seen. -/
def HandlerLog.empty : HandlerLog := ⟨[], [], [], [], [], []⟩

namespace State

variable {cfg : Config} {τ : Type*} {s s' : State cfg τ} {a : Act τ} {t : Tid τ} {w : ℕ}
  {g : HandlerLog} {n : ℕ}

/-- The handlers whose events are pending in the queue. -/
def pendingHandlers (s : State cfg τ) (q : QueueId) : List ℕ :=
  (s.cq q).pending.filterMap Event.handler?

/-- The handlers in each place. -/
def handlerPlaces (s : State cfg τ) (g : HandlerLog) : HandlerPlace τ → List ℕ
  | .queue q => s.pendingHandlers q
  | .entered w => (s.worker w).entered
  | .armed w => (s.worker w).armed
  | .posting t => posting (s.frame t)
  | .subQueue j => (s.taskQueue.queues j).filterMap Thunk.handler?
  | .hand w => (s.worker w).thunks.filterMap Thunk.handler?
  | .suspended => s.suspended
  | .resumed t => resumed (s.frame t)
  | .deleted => g.deleted
  | .dropped => g.dropped
  | .stopped => g.stopped

/-- The handler that a step of the worker deletes. -/
def deletes (s : State cfg τ) (w : ℕ) : List ℕ :=
  match s.worker w with
  | .completing _ _ _ (.handler h isOk .entered) =>
      if (s.handler h).deleteOnNextComplete || !isOk then [h] else []
  | _ => []

/-- The handler that makes its successor in a step of the worker. -/
def serves (s : State cfg τ) (w : ℕ) : List ℕ :=
  match s.worker w with
  | .completing _ _ _ (.handler h isOk .entered) =>
      if (s.handler h).deleteOnNextComplete || !isOk then [] else [h]
  | _ => []

/-- The handler that calls `Finish` in the `complete` of the worker. -/
def answers (s : State cfg τ) (w : ℕ) : List ℕ :=
  match s.worker w with
  | .completing _ _ _ (.handler h _ .armed) => if (s.handler h).immediate then [h] else []
  | _ => []

/-- The handler whose detached work comes to this end in a step of the worker. -/
def worksTo (s : State cfg τ) (w : ℕ) (answer : WorkAnswer) (e : WorkEnd) : List ℕ :=
  if answer.work = e then (s.worker w).executes else []

/-- The handler whose work a step of the thread to `f` has refused, or lost by an exception. -/
def drops (s : State cfg τ) (t : Tid τ) (f : Option Frame) : List ℕ :=
  match f with
  | none | some (.push _ (.leaving true _)) => posting (s.frame t)
  | _ => []

end State

/-- What has been seen after a step of the context. A step that ends in `std::terminate` finishes
nothing. -/
def HandlerLog.see {cfg : Config} {τ : Type*} (g : HandlerLog) (s : State cfg τ) (a : Act τ)
    (s' : State cfg τ) : HandlerLog :=
  match a with
  | .call _ _ => g
  | .api t answer =>
      let ends := resumed (s.frame t)
      { g with
        dropped := g.dropped ++ s.drops t (s'.frame t)
        stopped := g.stopped ++ if answer.stopped then ends else []
        finished := g.finished ++ if answer.stopped then [] else ends
        late := g.late ++ if answer.stopped then [] else
          ends.filter fun h => (s.cq (s.handler h).cq).isShutdown }
  | .work w answer =>
      if s'.terminated then g
      else
        { g with
          deleted := g.deleted ++ s.deletes w
          stopped := g.stopped ++ s.worksTo w answer .stopped
          served := g.served ++ s.serves w
          finished := g.finished ++ s.answers w ++ s.worksTo w answer .finished
          late := g.late ++ if (s.worker w).PastLoop then s.worksTo w answer .finished else [] }

/-- The context with an observer of the handlers. -/
def handledSystem (cfg : Config) (τ : Type*) [DecidableEq τ] :
    System (State cfg τ × HandlerLog) (Act τ) :=
  (contextSystem cfg τ).observed .empty HandlerLog.see

/-! ### The life of a handler -/

/-- A handler moves on from place to place; the flag is its `delete_on_next_complete_`. -/
inductive Advances {τ : Type*} : HandlerPlace τ × Bool → HandlerPlace τ × Bool → Prop
  /-- A worker is handed the event. -/
  | hand {q : QueueId} {w : ℕ} {b : Bool} : Advances (.queue q, b) (.entered w, b)
  /-- A request has arrived, and the successor is made. -/
  | serve {w : ℕ} : Advances (.entered w, false) (.armed w, true)
  /-- The event is the last one. -/
  | delete {w : ℕ} {b : Bool} : Advances (.entered w, b) (.deleted, b)
  /-- The logic has returned or thrown, and `Finish` is called. -/
  | finish {w : ℕ} {q : QueueId} : Advances (.armed w, true) (.queue q, true)
  /-- The detached work is started. -/
  | post {w : ℕ} : Advances (.armed w, true) (.posting (.worker w), true)
  | store {t : Tid τ} {j : ℕ} : Advances (.posting t, true) (.subQueue j, true)
  | drop {t : Tid τ} : Advances (.posting t, true) (.dropped, true)
  | collect {j w : ℕ} : Advances (.subQueue j, true) (.hand w, true)
  /-- The thunk of the detached work completes it, and `Finish` is called. -/
  | execute {w : ℕ} {q : QueueId} : Advances (.hand w, true) (.queue q, true)
  | stop {w : ℕ} : Advances (.hand w, true) (.stopped, true)
  /-- The detached work goes on elsewhere. -/
  | suspend {w : ℕ} : Advances (.hand w, true) (.suspended, true)
  | resume {t : Tid τ} : Advances (.suspended, true) (.resumed t, true)
  /-- The detached work completes elsewhere, and `Finish` is called. -/
  | complete {t : Tid τ} {q : QueueId} : Advances (.resumed t, true) (.queue q, true)
  | giveUp {t : Tid τ} : Advances (.resumed t, true) (.stopped, true)

/-- How far a handler has come. -/
def HandlerPlace.rank {τ : Type*} : HandlerPlace τ × Bool → ℕ
  | (.queue _, false) => 0
  | (.entered _, false) => 1
  | (.armed _, _) => 2
  | (.posting _, _) => 3
  | (.subQueue _, _) => 4
  | (.hand _, _) => 5
  | (.suspended, _) => 6
  | (.resumed _, _) => 7
  | (.queue _, true) => 8
  | (.entered _, true) => 9
  | (.deleted, _) | (.dropped, _) | (.stopped, _) => 10

/-- A handler never comes back. -/
theorem Advances.rank_lt {τ : Type*} {x y : HandlerPlace τ × Bool} (h : Advances x y) :
    HandlerPlace.rank x < HandlerPlace.rank y := by
  cases h with
  | @hand _ _ b => cases b <;> simp [HandlerPlace.rank]
  | @delete _ b => cases b <;> simp [HandlerPlace.rank]
  | serve | finish | post | store | drop | collect | execute | stop | suspend | resume | complete
  | giveUp => simp [HandlerPlace.rank]

theorem rank_of_advances {τ : Type*} {x y : HandlerPlace τ × Bool}
    (h : Relation.ReflTransGen Advances x y) :
    x = y ∨ HandlerPlace.rank x < HandlerPlace.rank y := by
  induction h with
  | refl => exact Or.inl rfl
  | tail _ hlast ih =>
    right
    rcases ih with rfl | hlt
    · exact hlast.rank_lt
    · exact hlt.trans hlast.rank_lt

/-- The work of the handler is detached. -/
def HandlerPlace.Detached {τ : Type*} : HandlerPlace τ → Prop
  | .posting _ | .subQueue _ | .hand _ | .suspended | .resumed _ | .dropped | .stopped => True
  | _ => False

/-- The handler has made its successor and not called `Finish`. -/
def HandlerPlace.Served {τ : Type*} : HandlerPlace τ → Prop
  | .armed _ => True
  | P => P.Detached

theorem HandlerPlace.Detached.served {τ : Type*} {P : HandlerPlace τ} (h : P.Detached) :
    P.Served := by
  cases P <;> first | exact h | exact h.elim

/-- Of the handlers that move to this place, those that call `Finish`. -/
def HandlerPlace.finishing {τ : Type*} : HandlerPlace τ → List ℕ → List ℕ
  | .queue _, l => l
  | _, _ => []

namespace State

variable {cfg : Config} {τ : Type*} {s s' : State cfg τ} {a : Act τ} {t : Tid τ} {w : ℕ}
  {g g' : HandlerLog} {n : ℕ} {P Q : HandlerPlace τ} {l : List ℕ}

/-! ### What stays where it is -/

/-- The handlers in one thread's calls. -/
structure SameHeld (f f' : Option Frame) : Prop where
  posting : posting f' = posting f
  resumed : resumed f' = resumed f

theorem SameHeld.refl (f : Option Frame) : SameHeld f f := ⟨rfl, rfl⟩

/-- The handlers in one worker's hands. -/
structure SameHands (pc pc' : WorkerPc) : Prop where
  entered : pc'.entered = pc.entered
  armed : pc'.armed = pc.armed
  thunks : pc'.thunks.filterMap Thunk.handler? = pc.thunks.filterMap Thunk.handler?

/-- No handler moves. -/
theorem handlerPlaces_eq (hpending : s'.pendingHandlers = s.pendingHandlers)
    (hworker : s'.worker = s.worker) (hheld : ∀ u, SameHeld (s.frame u) (s'.frame u))
    (hqueues : s'.taskQueue.queues = s.taskQueue.queues)
    (hsuspended : s'.suspended = s.suspended) : s'.handlerPlaces g = s.handlerPlaces g := by
  funext P
  cases P with
  | queue q => exact congrFun hpending q
  | entered v => simp only [handlerPlaces, hworker]
  | armed v => simp only [handlerPlaces, hworker]
  | posting u => exact (hheld u).posting
  | subQueue j => simp only [handlerPlaces, hqueues]
  | hand v => simp only [handlerPlaces, hworker]
  | suspended => exact hsuspended
  | resumed u => exact (hheld u).resumed
  | deleted | dropped | stopped => rfl

variable [DecidableEq τ]

theorem SameHeld.update {f : Option Frame} (h : SameHeld (s.frame t) f) (u : Tid τ) :
    SameHeld (s.frame u) (Function.update s.frame t f u) := by
  rcases eq_or_ne u t with rfl | hne
  · rwa [Function.update_self]
  · rw [Function.update_of_ne hne]
    exact .refl _

omit [DecidableEq τ] in
/-- The queues after an operation has been started on one of them. -/
theorem pendingHandlers_start {q : QueueId} {e : Event}
    (hcq : s'.cq = Function.update s.cq q ((s.cq q).start e)) (q' : QueueId) :
    s'.pendingHandlers q' =
      s.pendingHandlers q' ++ if q' = q then e.handler?.toList else [] := by
  simp only [pendingHandlers, hcq]
  split
  · next heq =>
    subst heq
    rw [Function.update_self]
    cases e <;> simp [CompletionQueue.start, Event.handler?]
  · next hne => rw [Function.update_of_ne hne, List.append_nil]

omit [DecidableEq τ] in
/-- `Finish` makes the handler pending on its own queue. -/
theorem pendingHandlers_finish (s u : State cfg τ) (h : ℕ) (hcq : u.cq = (s.finish h).cq) :
    u.pendingHandlers (s.handler h).cq = s.pendingHandlers (s.handler h).cq ++ [h] ∧
      ∀ q, .queue q ≠ (.queue (s.handler h).cq : HandlerPlace τ) →
        u.pendingHandlers q = s.pendingHandlers q := by
  have hstart : u.cq = Function.update s.cq (s.handler h).cq
      ((s.cq (s.handler h).cq).start (.handler h)) := hcq
  refine ⟨?_, fun q hq => ?_⟩
  · rw [pendingHandlers_start hstart, if_pos rfl]
    rfl
  · have hne : q ≠ (s.handler h).cq := fun heq => hq (by rw [heq])
    rw [pendingHandlers_start hstart, if_neg hne, List.append_nil]

omit [DecidableEq τ] in
/-- The step of a worker moves handlers between one of its hands and a place of another kind. -/
theorem moved_of_worker {c : WorkerPc} (hworker : s'.worker = Function.update s.worker w c)
    (hqueue : ∀ q, .queue q ≠ P → .queue q ≠ Q → s'.pendingHandlers q = s.pendingHandlers q)
    (hposting : ∀ u, .posting u ≠ Q → posting (s'.frame u) = posting (s.frame u))
    (hresumed : ∀ u, resumed (s'.frame u) = resumed (s.frame u))
    (hsub : ∀ j, .subQueue j ≠ P → s'.taskQueue.queues j = s.taskQueue.queues j)
    (hentered : .entered w ≠ P → .entered w ≠ Q → c.entered = (s.worker w).entered)
    (harmed : .armed w ≠ P → .armed w ≠ Q → c.armed = (s.worker w).armed)
    (hhand : .hand w ≠ P → .hand w ≠ Q → c.thunks.filterMap Thunk.handler? =
      (s.worker w).thunks.filterMap Thunk.handler?)
    (hsuspended : .suspended ≠ Q → s'.suspended = s.suspended)
    (hdeleted : .deleted ≠ Q → g'.deleted = g.deleted) (hdropped : g'.dropped = g.dropped)
    (hstopped : .stopped ≠ Q → g'.stopped = g.stopped)
    (hsource : (s.handlerPlaces g P).Perm (l ++ s'.handlerPlaces g' P))
    (htarget : s'.handlerPlaces g' Q = s.handlerPlaces g Q ++ l) :
    Moved (s.handlerPlaces g) (s'.handlerPlaces g') P Q l := by
  refine ⟨hsource, htarget, ?_⟩
  have hother : ∀ v, v ≠ w → s'.worker v = s.worker v := fun v hv => by
    rw [hworker, Function.update_of_ne hv]
  have hself : s'.worker w = c := by rw [hworker, Function.update_self]
  intro R hne hne'
  cases R with
  | queue q => exact hqueue q hne hne'
  | entered v =>
    rcases eq_or_ne v w with rfl | hv
    · exact (congrArg WorkerPc.entered hself).trans (hentered hne hne')
    · simp only [handlerPlaces, hother v hv]
  | armed v =>
    rcases eq_or_ne v w with rfl | hv
    · exact (congrArg WorkerPc.armed hself).trans (harmed hne hne')
    · simp only [handlerPlaces, hother v hv]
  | posting u => exact hposting u hne'
  | subQueue j => simp only [handlerPlaces, hsub j hne]
  | hand v =>
    rcases eq_or_ne v w with rfl | hv
    · simp only [handlerPlaces, hself]
      exact hhand hne hne'
    · simp only [handlerPlaces, hother v hv]
  | suspended => exact hsuspended hne'
  | resumed u => exact hresumed u
  | deleted => exact hdeleted hne'
  | dropped => exact hdropped
  | stopped => exact hstopped hne'

/-! ### What a step does to the handlers -/

/-- Handlers may move from the first place to the second. -/
structure Onward (P Q : HandlerPlace τ) : Prop where
  ne : P ≠ Q
  served : Q.Served → P.Served
  finishes : ∀ l, Q.finishing l ≠ [] → P.Served
  advances : ∀ b, (P.Served → b = true) → Advances (P, b) (Q, b)

omit [DecidableEq τ] in
/-- A handler that has made its successor moves on. -/
theorem Onward.of_served (hP : P.Served) (hadv : Advances (P, true) (Q, true)) : Onward P Q where
  ne := by
    rintro rfl
    exact absurd hadv.rank_lt (Nat.lt_irrefl _)
  served _ := hP
  finishes _ _ := hP
  advances b hb := hb hP ▸ hadv

omit [DecidableEq τ] in
/-- A handler moves on otherwise. -/
theorem Onward.of_advances (hadv : ∀ b, Advances (P, b) (Q, b)) (hQ : ¬ Q.Served)
    (hfinish : ∀ l, Q.finishing l = []) : Onward P Q where
  ne := by
    rintro rfl
    exact absurd (hadv true).rank_lt (Nat.lt_irrefl _)
  served h := absurd h hQ
  finishes l h := absurd (hfinish l) h
  advances b _ := hadv b

/-- A step, as the handlers see it. -/
inductive HandlerChange (s : State cfg τ) (g : HandlerLog) (s' : State cfg τ) (g' : HandlerLog) :
    Prop
  | same : g' = g → s'.handlerPlaces g = s.handlerPlaces g → s'.handler = s.handler →
      s'.nextHandler = s.nextHandler → HandlerChange s g s' g'
  /-- A new container is wired. -/
  | wire {i : ℕ} {r : List (List Bool)} : g' = g →
      s'.handlerPlaces g = (s.wire i 0 r).handlerPlaces g →
      s'.handler = (s.wire i 0 r).handler →
      s'.nextHandler = (s.wire i 0 r).nextHandler → HandlerChange s g s' g'
  | move {P Q : HandlerPlace τ} {l : List ℕ} :
      Moved (s.handlerPlaces g) (s'.handlerPlaces g') P Q l → Onward P Q →
      (Q.Detached → P.Detached ∨ ∀ n ∈ l, (s.handler n).immediate = false) →
      g'.served = g.served → g'.finished = g.finished ++ Q.finishing l →
      s'.handler = s.handler → s'.nextHandler = s.nextHandler → HandlerChange s g s' g'
  /-- A handler that has been handed a request makes its successor. -/
  | serve {w n : ℕ} {q : QueueId} {b : Bool} :
      Moved ((s.arm q b).handlerPlaces g) (s'.handlerPlaces g') (.entered w) (.armed w)
        [n] → (s.handler n).deleteOnNextComplete = false →
      g'.served = g.served ++ [n] → g'.finished = g.finished →
      s'.handler = Function.update (s.arm q b).handler n
        { (s.arm q b).handler n with deleteOnNextComplete := true } →
      s'.nextHandler = (s.arm q b).nextHandler → HandlerChange s g s' g'

omit [DecidableEq τ] in
/-- A thread moves on outside of the part of `post(ThunkType)` in which it holds the thunk. -/
theorem HandlerChange.of_frame [DecidableEq τ] {f : Option Frame}
    (hframe : s'.frame = Function.update s.frame t f) (hheld : SameHeld (s.frame t) f)
    (hpending : s'.pendingHandlers = s.pendingHandlers) (hworker : s'.worker = s.worker)
    (hqueues : s'.taskQueue.queues = s.taskQueue.queues) (hsuspended : s'.suspended = s.suspended)
    (hhandler : s'.handler = s.handler) (hnext : s'.nextHandler = s.nextHandler) :
    HandlerChange s g s' g :=
  .same rfl (handlerPlaces_eq hpending hworker (fun u => hframe ▸ hheld.update u) hqueues
    hsuspended) hhandler hnext

/-- The call of a member function. -/
private theorem handlerChange_begin {c : Call} (h : s.frame t = none) :
    HandlerChange s g (s.begin t c) g := by
  cases c with
  | postAt now deadline =>
    simp only [begin]
    split <;> exact .of_frame (t := t) rfl (h ▸ ⟨rfl, rfl⟩) rfl rfl rfl rfl rfl rfl
  | makeServer wired =>
    simp only [begin, beginAttach]
    split
    · exact .same rfl (handlerPlaces_eq rfl rfl (fun _ => .refl _) rfl rfl) rfl rfl
    · obtain ⟨cq, handler, nextHandler, hwire⟩ := wire_eq s s.nextId 0 wired
      have hframe : (s.wire s.nextId 0 wired).frame t = none := by rw [hwire, ← h]
      refine .wire (i := s.nextId) (r := wired) rfl (handlerPlaces_eq rfl rfl (fun u => ?_) rfl rfl)
        rfl rfl
      exact SameHeld.update (s := s.wire s.nextId 0 wired) (hframe ▸ ⟨rfl, rfl⟩) u
  | resume n =>
    simp only [begin]
    split
    · next hmem =>
      refine .move (P := .suspended) (Q := .resumed t) (l := [n]) ⟨?_, ?_, ?_⟩
        (.of_served trivial .resume) (fun _ => Or.inl trivial) rfl (List.append_nil _).symm rfl rfl
      · exact List.perm_cons_erase hmem
      · show resumed (Function.update s.frame t _ t) = resumed (s.frame t) ++ [n]
        rw [Function.update_self, h]
        rfl
      · intro R hne hne'
        cases R with
        | posting u =>
          rcases eq_or_ne u t with rfl | hu
          · show posting (Function.update s.frame u _ u) = posting (s.frame u)
            rw [Function.update_self, h]
            rfl
          · exact congrArg posting (Function.update_of_ne hu ..)
        | resumed u =>
          have hu : u ≠ t := fun heq => hne' (by rw [heq])
          exact congrArg resumed (Function.update_of_ne hu ..)
        | suspended => exact absurd rfl hne
        | _ => rfl
    · exact .same rfl rfl rfl rfl
  | _ => exact .of_frame (t := t) rfl (h ▸ ⟨rfl, rfl⟩) rfl rfl rfl rfl rfl rfl

/-- A `post(ThunkType)` gives the thunk away. -/
private theorem moved_of_posting {f : Option Frame}
    (hframe : s'.frame = Function.update s.frame t f) (hposting : posting f = [])
    (hresumed : resumed f = resumed (s.frame t))
    (hpending : s'.pendingHandlers = s.pendingHandlers) (hworker : s'.worker = s.worker)
    (hsuspended : s'.suspended = s.suspended)
    (hsub : ∀ j, .subQueue j ≠ Q → s'.taskQueue.queues j = s.taskQueue.queues j)
    (hdeleted : g'.deleted = g.deleted) (hdropped : .dropped ≠ Q → g'.dropped = g.dropped)
    (hstopped : g'.stopped = g.stopped)
    (htarget : s'.handlerPlaces g' Q = s.handlerPlaces g Q ++ posting (s.frame t)) :
    Moved (s.handlerPlaces g) (s'.handlerPlaces g') (.posting t) Q (posting (s.frame t)) := by
  refine ⟨?_, htarget, ?_⟩
  · show (posting (s.frame t)).Perm (posting (s.frame t) ++ posting (s'.frame t))
    rw [hframe, Function.update_self, hposting, List.append_nil]
  · intro R hne hne'
    cases R with
    | queue q => exact congrFun hpending q
    | entered v => simp only [handlerPlaces, hworker]
    | armed v => simp only [handlerPlaces, hworker]
    | posting u =>
      have hu : u ≠ t := fun heq => hne (by rw [heq])
      simp only [handlerPlaces, hframe, Function.update_of_ne hu]
    | subQueue j => simp only [handlerPlaces, hsub j hne']
    | hand v => simp only [handlerPlaces, hworker]
    | suspended => exact hsuspended
    | resumed u =>
      rcases eq_or_ne u t with rfl | hu
      · simp only [handlerPlaces, hframe, Function.update_self, hresumed]
      · simp only [handlerPlaces, hframe, Function.update_of_ne hu]
    | deleted => exact hdeleted
    | dropped => exact hdropped hne'
    | stopped => exact hstopped

omit [DecidableEq τ] in
theorem see_api {answer : ApiAnswer} (h : resumed (s.frame t) = []) :
    g.see s (.api t answer) s' = { g with dropped := g.dropped ++ s.drops t (s'.frame t) } := by
  simp [HandlerLog.see, h]

private theorem handlerChange_push {f : Thunk} {pc pc' : PushPc Thunk} {answer : ApiAnswer}
    {q' : AtomicTaskStealingQueue Thunk cfg.nTaskQueues} {ev : List (QueueEvent Thunk)}
    (hpushes : s.PushesOk) (hf : s.frame t = some (.push f pc))
    (hs : PushStep s.taskQueue pc q' pc' ev) :
    HandlerChange s g (s.afterPush t f q' pc' ev)
      (g.see s (.api t answer) (s.afterPush t f q' pc' ev)) := by
  have hsays := (hpushes.running t f pc hf).2.2
  have hnone : resumed (s.frame t) = [] := by rw [hf]; rfl
  -- the call goes on with its thunk
  have hgo : ∀ {u : State cfg τ} {fr : Option Frame}, u.frame = Function.update s.frame t fr →
      SameHeld (s.frame t) fr → s.drops t fr = [] →
      u.pendingHandlers = s.pendingHandlers → u.worker = s.worker →
      u.taskQueue.queues = s.taskQueue.queues → u.suspended = s.suspended →
      u.handler = s.handler → u.nextHandler = s.nextHandler →
      HandlerChange s g u (g.see s (.api t answer) u) := by
    intro u fr hframe hheld hdrops hpending hworker hqueues hsuspended hhandler hnext
    have hsee : g.see s (.api t answer) u = g := by
      rw [see_api hnone, hframe, Function.update_self, hdrops, List.append_nil]
    rw [hsee]
    exact .of_frame hframe hheld hpending hworker hqueues hsuspended hhandler hnext
  -- the call drops its thunk
  have hdrop : ∀ {u : State cfg τ} {fr : Option Frame}, u.frame = Function.update s.frame t fr →
      posting fr = [] → resumed fr = [] → s.drops t fr = posting (s.frame t) →
      u.pendingHandlers = s.pendingHandlers → u.worker = s.worker →
      u.taskQueue.queues = s.taskQueue.queues → u.suspended = s.suspended →
      u.handler = s.handler → u.nextHandler = s.nextHandler →
      HandlerChange s g u (g.see s (.api t answer) u) := by
    intro u fr hframe hposting hresumed hdrops hpending hworker hqueues hsuspended hhandler hnext
    rw [see_api hnone, hframe, Function.update_self, hdrops]
    exact .move (moved_of_posting (Q := .dropped) hframe hposting (hresumed.trans hnone.symm)
      hpending hworker hsuspended (fun j _ => by rw [hqueues]) rfl (fun hne => absurd rfl hne) rfl
      rfl) (.of_served trivial .drop) (fun _ => Or.inl trivial) rfl (List.append_nil _).symm
      hhandler hnext
  cases hs with
  | refuse => exact hdrop rfl rfl rfl rfl rfl rfl rfl rfl rfl rfl
  | throw => exact hdrop rfl rfl rfl rfl rfl rfl rfl rfl rfl rfl
  | accept | fetch | wrap | busy => exact hgo rfl (hf ▸ ⟨rfl, rfl⟩) rfl rfl rfl rfl rfl rfl rfl
  | @leave d _ =>
    refine hgo rfl (hf ▸ ⟨rfl, rfl⟩) ?_ rfl rfl rfl rfl rfl rfl
    show posting (s.frame t) = []
    rw [hf]
    rfl
  | @store h o i j =>
    obtain ⟨rfl, -⟩ := hsays
    have hheld : posting (s.frame t) = h.handler?.toList := by rw [hf]; rfl
    rw [see_api hnone]
    refine .move (moved_of_posting (Q := .subQueue j) rfl rfl hnone.symm rfl rfl rfl
      (fun k hk => ?_) rfl (fun _ => ?_) rfl ?_) (.of_served trivial .store)
      (fun _ => Or.inl trivial) rfl (List.append_nil _).symm rfl rfl
    · have hkj : k ≠ j := fun heq => hk (by rw [heq])
      exact Function.update_of_ne hkj ..
    · have hdrops : s.drops t (some (.push h (.leaving false none))) = [] := rfl
      show g.dropped ++ s.drops t (Function.update s.frame t _ t) = g.dropped
      rw [Function.update_self, hdrops, List.append_nil]
    · show (Function.update s.taskQueue.queues j (s.taskQueue.queues j ++ [h]) j).filterMap
        Thunk.handler? = _
      rw [Function.update_self, List.filterMap_append, hheld]
      refine congrArg _ ?_
      cases hh : h.handler? <;> simp [hh]

/-! ### The steps of the workers -/

omit [DecidableEq τ] in
theorem see_work {answer : WorkAnswer} (hgo : s'.terminated = false) :
    g.see s (.work w answer) s' = { g with
      deleted := g.deleted ++ s.deletes w
      stopped := g.stopped ++ s.worksTo w answer .stopped
      served := g.served ++ s.serves w
      finished := g.finished ++ s.answers w ++ s.worksTo w answer .finished
      late := g.late ++ if (s.worker w).PastLoop then s.worksTo w answer .finished else [] } := by
  simp [HandlerLog.see, hgo]

omit [DecidableEq τ] in
/-- Outside of the `complete` of a handler and of the thunks nothing is seen. -/
theorem see_of_not_handles {answer : WorkAnswer} (h : ¬ (s.worker w).Handles) :
    g.see s (.work w answer) s' = g := by
  have hnothing : s.deletes w = [] ∧ s.serves w = [] ∧ s.answers w = [] ∧
      (s.worker w).executes = [] := by
    unfold deletes serves answers
    revert h
    generalize s.worker w = pc
    rcases pc with _ | _ | _ | ⟨_, _, _, ⟨_, _⟩ | ⟨_, _, _ | _ | _⟩⟩ | _ | _ | _ | _ |
      ⟨_ | _⟩ | _ <;>
      simp [WorkerPc.Handles, WorkerPc.executes]
  obtain ⟨hdeletes, hserves, hanswers, hexecutes⟩ := hnothing
  simp [HandlerLog.see, worksTo, hdeletes, hserves, hanswers, hexecutes]

omit [DecidableEq τ] in
/-- The worker moves on with the same handlers in its hands. -/
theorem HandlerChange.of_worker {pc : WorkerPc}
    (hworker : s'.worker = Function.update s.worker w pc) (hhands : SameHands (s.worker w) pc)
    (hpending : s'.pendingHandlers = s.pendingHandlers)
    (hheld : ∀ u, SameHeld (s.frame u) (s'.frame u))
    (hqueues : s'.taskQueue.queues = s.taskQueue.queues) (hsuspended : s'.suspended = s.suspended)
    (hhandler : s'.handler = s.handler) (hnext : s'.nextHandler = s.nextHandler) :
    HandlerChange s g s' g := by
  have hkeep : ∀ {β : Type} (view : WorkerPc → β), view pc = view (s.worker w) →
      ∀ v, view (s'.worker v) = view (s.worker v) := by
    intro β view hview v
    rw [hworker]
    rcases eq_or_ne v w with rfl | hv
    · rw [Function.update_self, hview]
    · rw [Function.update_of_ne hv]
  refine .same rfl ?_ hhandler hnext
  funext P
  cases P with
  | queue q => exact congrFun hpending q
  | entered v => exact hkeep WorkerPc.entered hhands.entered v
  | armed v => exact hkeep WorkerPc.armed hhands.armed v
  | posting u => exact (hheld u).posting
  | subQueue j => simp only [handlerPlaces, hqueues]
  | hand v => exact hkeep (fun pc => pc.thunks.filterMap Thunk.handler?) hhands.thunks v
  | suspended => exact hsuspended
  | resumed u => exact (hheld u).resumed
  | deleted | dropped | stopped => rfl

omit [DecidableEq τ] in
/-- The worker takes an event from queue `q`. -/
private theorem handlerChange_take {k i m : ℕ} {c : PassCounts} {q : QueueId} {e : Event}
    {isOk : Bool} (hpc : s.worker w = .polling k i c) (he : (s.cq q).pending[m]? = some e) :
    HandlerChange s g ((s.setCq q { s.cq q with pending := (s.cq q).pending.eraseIdx m }).setWorker
      w (.completing k i c (completionOf isOk e))) g := by
  obtain ⟨hm, hget⟩ := List.getElem?_eq_some_iff.mp he
  have hperm : (s.cq q).pending.Perm (e :: (s.cq q).pending.eraseIdx m) := by
    rw [← hget]
    exact (List.getElem_cons_eraseIdx_perm hm).symm
  refine .move (P := .queue q) (Q := .entered w) (l := e.handler?.toList)
    (moved_of_worker rfl (fun q' hq _ => ?_) (fun _ _ => rfl) (fun _ => rfl) (fun _ _ => rfl)
      (fun _ hne => absurd rfl hne) (fun _ _ => ?_) (fun _ _ => ?_) (fun _ => rfl) (fun _ => rfl)
      rfl (fun _ => rfl) ?_ ?_)
    (.of_advances (fun _ => .hand) id fun _ => rfl) (fun hdetached => absurd hdetached id) rfl
    (List.append_nil _).symm rfl rfl
  · have hne : q' ≠ q := fun heq => hq (by rw [heq])
    show ((Function.update s.cq q _ q').pending).filterMap Event.handler? = _
    rw [Function.update_of_ne hne]
    rfl
  · rw [hpc]
    cases e <;> rfl
  · rw [hpc]
    cases e <;> rfl
  · show (s.pendingHandlers q).Perm
      (_ ++ (Function.update s.cq q _ q).pending.filterMap Event.handler?)
    rw [Function.update_self]
    refine (hperm.filterMap Event.handler?).trans ?_
    cases e <;> rfl
  · show (Function.update s.worker w _ w).entered = (s.worker w).entered ++ _
    rw [Function.update_self, hpc]
    cases e <;> rfl

/-- The `complete` of a handler is entered: it deletes itself, or makes its successor. -/
private theorem handlerChange_entered {k i h : ℕ} {c : PassCounts} {isOk : Bool}
    {answer : WorkAnswer} (hgo : s.terminated = false)
    (hpc : s.worker w = .completing k i c (.handler h isOk .entered)) :
    HandlerChange s g (s.completeStep w k i c (.handler h isOk .entered))
      (g.see s (.work w answer) (s.completeStep w k i c (.handler h isOk .entered))) := by
  have hworks : ∀ e, s.worksTo w answer e = [] := fun e => by
    simp [worksTo, hpc, WorkerPc.executes]
  have hanswers : s.answers w = [] := by simp only [answers, hpc]
  have hentered : ∀ {u : WorkerPc}, u.entered = [] →
      (s.worker w).entered.Perm ([h] ++ (Function.update s.worker w u w).entered) := by
    intro u hu
    rw [Function.update_self, hu, hpc]
    exact List.Perm.refl _
  by_cases hdel : ((s.handler h).deleteOnNextComplete || !isOk) = true
  · -- `delete this`
    have hdeletes : s.deletes w = [h] := by simp only [deletes, hpc, hdel, if_true]
    have hserves : s.serves w = [] := by simp only [serves, hpc, hdel, if_true]
    simp only [completeStep, hdel, if_true]
    rw [see_work, hdeletes, hserves, hanswers, hworks, hworks]
    · refine .move (P := .entered w) (Q := .deleted) (l := [h])
        (moved_of_worker rfl (fun _ _ _ => rfl) (fun _ _ => rfl) (fun _ => rfl) (fun _ _ => rfl)
          (fun hne _ => absurd rfl hne) (fun _ _ => ?_) (fun _ _ => ?_) (fun _ => rfl)
          (fun hne => absurd rfl hne) rfl (fun _ => List.append_nil _) (hentered rfl) rfl)
        (.of_advances (fun _ => .delete) id fun _ => rfl) (fun hdetached => absurd hdetached id)
        (List.append_nil _) (List.append_nil _) rfl rfl
      · rw [hpc]
        rfl
      · rw [hpc]
        rfl
    · exact hgo
  · have hdeletes : s.deletes w = [] := by simp only [deletes, hpc, hdel]; rfl
    have hserves : s.serves w = [h] := by simp only [serves, hpc, hdel]; rfl
    obtain ⟨hflag, rfl⟩ : (s.handler h).deleteOnNextComplete = false ∧ isOk = true := by
      simpa using hdel
    simp only [completeStep, hdel]
    rw [see_work, hdeletes, hserves, hanswers, hworks, hworks]
    · refine .serve (w := w) (n := h) (q := (s.handler h).cq)
        (b := (s.handler h).immediate) ?_ hflag rfl ?_ rfl rfl
      refine moved_of_worker (c := .completing k i c (.handler h true .armed)) rfl
        (fun _ _ _ => rfl) (fun _ _ => rfl) (fun _ => rfl) (fun _ _ => rfl)
        (fun hne _ => absurd rfl hne) (fun _ hne => absurd rfl hne) (fun _ _ => ?_)
        (fun _ => rfl) (fun _ => List.append_nil _) rfl (fun _ => List.append_nil _)
        (hentered rfl) ?_
      · show _ = (s.worker w).thunks.filterMap Thunk.handler?
        rw [hpc]
        rfl
      · show (Function.update s.worker w _ w).armed = (s.worker w).armed ++ [h]
        rw [Function.update_self, hpc]
        rfl
      · exact (List.append_nil _).trans (List.append_nil _)
    · exact hgo

/-- A handler that has made its successor calls `Finish`, or its detached work is posted. -/
private theorem handlerChange_armed {k i h : ℕ} {c : PassCounts} {isOk : Bool}
    {answer : WorkAnswer} (hgo : s.terminated = false) (hidle : s.frame (.worker w) = none)
    (hpc : s.worker w = .completing k i c (.handler h isOk .armed)) :
    HandlerChange s g (s.completeStep w k i c (.handler h isOk .armed))
      (g.see s (.work w answer) (s.completeStep w k i c (.handler h isOk .armed))) := by
  have hworks : ∀ e, s.worksTo w answer e = [] := fun e => by
    simp [worksTo, hpc, WorkerPc.executes]
  have hdeletes : s.deletes w = [] := by simp only [deletes, hpc]
  have hserves : s.serves w = [] := by simp only [serves, hpc]
  have harmed : ∀ {u : WorkerPc}, u.armed = [] →
      (s.worker w).armed.Perm ([h] ++ (Function.update s.worker w u w).armed) := by
    intro u hu
    rw [Function.update_self, hu, hpc]
    exact List.Perm.refl _
  by_cases himm : (s.handler h).immediate = true
  · -- `Finish`
    have hanswers : s.answers w = [h] := by simp only [answers, hpc, himm, if_true]
    simp only [completeStep, himm, if_true]
    obtain ⟨htarget, hother⟩ := pendingHandlers_finish s ((s.finish h).setWorker w
      (.polling k (i + 1) { c with executed := c.executed + 1 })) h rfl
    rw [see_work, hdeletes, hserves, hanswers, hworks, hworks]
    · refine .move (P := .armed w) (Q := .queue (s.handler h).cq) (l := [h])
        (moved_of_worker rfl (fun q _ hq => hother q hq) (fun _ _ => rfl) (fun _ => rfl)
          (fun _ _ => rfl) (fun _ _ => ?_) (fun hne _ => absurd rfl hne) (fun _ _ => ?_)
          (fun _ => rfl) (fun _ => List.append_nil _) rfl (fun _ => List.append_nil _) (harmed rfl)
          htarget)
        (.of_served trivial .finish) (fun hdetached => absurd hdetached id) (List.append_nil _)
        (List.append_nil _) rfl rfl
      · rw [hpc]
        rfl
      · rw [hpc]
        rfl
    · exact hgo
  · -- the detached work is posted
    have hanswers : s.answers w = [] := by simp only [answers, hpc, himm]; rfl
    simp only [completeStep, himm]
    rw [see_work, hdeletes, hserves, hanswers, hworks, hworks]
    · refine .move (P := .armed w) (Q := .posting (.worker w)) (l := [h])
        (moved_of_worker rfl (fun _ _ _ => rfl) (fun u hu => ?_) (fun u => ?_) (fun _ _ => rfl)
          (fun _ _ => ?_) (fun hne _ => absurd rfl hne) (fun _ _ => ?_) (fun _ => rfl)
          (fun _ => List.append_nil _) rfl (fun _ => List.append_nil _) (harmed rfl) ?_)
        (.of_served trivial .post) (fun _ => Or.inr fun n hn => ?_) (List.append_nil _)
        (List.append_nil _) rfl rfl
      · have hne : u ≠ .worker w := fun heq => hu (by rw [heq])
        exact congrArg posting (Function.update_of_ne hne ..)
      · rcases eq_or_ne u (.worker w) with rfl | hne
        · show resumed (Function.update s.frame (.worker w) _ (.worker w)) = _
          rw [Function.update_self, hidle]
          rfl
        · exact congrArg resumed (Function.update_of_ne hne ..)
      · rw [hpc]
        rfl
      · rw [hpc]
        rfl
      · show posting (Function.update s.frame (.worker w) _ (.worker w)) =
          posting (s.frame (.worker w)) ++ [h]
        rw [Function.update_self, hidle]
        rfl
      · rw [List.mem_singleton.mp hn]
        simpa using himm
    · exact hgo

/-- One step inside `complete`. -/
private theorem handlerChange_complete {k i : ℕ} {c : PassCounts} {what : Completion}
    {answer : WorkAnswer} (hgo : s.terminated = false) (hidle : s.frame (.worker w) = none)
    (hpc : s.worker w = .completing k i c what) :
    HandlerChange s g (s.completeStep w k i c what)
      (g.see s (.work w answer) (s.completeStep w k i c what)) := by
  rcases what with ⟨⟨m⟩ | ⟨m⟩ | ⟨h⟩, isOk⟩ | ⟨h, isOk, _ | _ | _⟩
  · rw [see_of_not_handles (by rw [hpc]; exact id)]
    exact .of_worker rfl (by rw [hpc]; exact ⟨rfl, rfl, rfl⟩) rfl (fun _ => .refl _) rfl rfl rfl rfl
  · rw [see_of_not_handles (by rw [hpc]; exact id)]
    exact .of_worker rfl (by rw [hpc]; exact ⟨rfl, rfl, rfl⟩) rfl (fun _ => .refl _) rfl rfl rfl rfl
  · rw [see_of_not_handles (by rw [hpc]; exact id)]
    exact .of_worker rfl (by rw [hpc]; exact ⟨rfl, rfl, rfl⟩) rfl (fun _ => .refl _) rfl rfl rfl rfl
  · exact handlerChange_entered hgo hpc
  · exact handlerChange_armed hgo hidle hpc
  · rw [see_of_not_handles (by rw [hpc]; exact id)]
    exact .of_worker rfl (by rw [hpc]; exact ⟨rfl, rfl, rfl⟩) rfl (fun _ => .refl _) rfl rfl rfl rfl

omit [DecidableEq τ] in
/-- The handler whose work is executed leaves the hands of the worker. -/
private theorem HandlerChange.of_hand {h : ℕ} {pc : WorkerPc}
    (hhand : (s.worker w).thunks.filterMap Thunk.handler? =
      h :: pc.thunks.filterMap Thunk.handler?)
    (hentered : pc.entered = (s.worker w).entered) (harmed : pc.armed = (s.worker w).armed)
    (hworker : s'.worker = Function.update s.worker w pc) (hframe : s'.frame = s.frame)
    (hqueues : s'.taskQueue.queues = s.taskQueue.queues)
    (hqueue : ∀ q, .queue q ≠ Q → s'.pendingHandlers q = s.pendingHandlers q)
    (hsuspended : .suspended ≠ Q → s'.suspended = s.suspended)
    (hdeleted : g'.deleted = g.deleted) (hdropped : g'.dropped = g.dropped)
    (hstopped : .stopped ≠ Q → g'.stopped = g.stopped)
    (htarget : s'.handlerPlaces g' Q = s.handlerPlaces g Q ++ [h])
    (hadv : Advances (.hand w, true) (Q, true)) (hserved : g'.served = g.served)
    (hfinished : g'.finished = g.finished ++ Q.finishing [h])
    (hhandler : s'.handler = s.handler) (hnext : s'.nextHandler = s.nextHandler) :
    HandlerChange s g s' g' := by
  have hleave : ((s.worker w).thunks.filterMap Thunk.handler?).Perm
      ([h] ++ (s'.worker w).thunks.filterMap Thunk.handler?) := by
    rw [hworker, Function.update_self, hhand]
    exact List.Perm.refl _
  have hmoved : Moved (s.handlerPlaces g) (s'.handlerPlaces g') (.hand w) Q [h] :=
    moved_of_worker hworker (fun q _ hq => hqueue q hq) (fun _ _ => by rw [hframe])
      (fun _ => by rw [hframe]) (fun _ _ => by rw [hqueues]) (fun _ _ => hentered)
      (fun _ _ => harmed) (fun hne _ => absurd rfl hne) hsuspended (fun _ => hdeleted) hdropped
      hstopped hleave htarget
  exact .move hmoved (.of_served trivial hadv) (fun _ => Or.inl trivial) hserved hfinished hhandler
    hnext

omit [DecidableEq τ] in
/-- The worker executes the first of the thunks in its hands. -/
private theorem handlerChange_execute {f : Thunk} {fs : List Thunk} {answer : WorkAnswer}
    {pc : WorkerPc} (hgo : s.terminated = false) (hhand : (s.worker w).thunks = f :: fs)
    (hexecutes : (s.worker w).executes = f.handler?.toList)
    (hnone : s.deletes w = [] ∧ s.serves w = [] ∧ s.answers w = []) (hthunks : pc.thunks = fs)
    (hentered : pc.entered = (s.worker w).entered) (harmed : pc.armed = (s.worker w).armed) :
    HandlerChange s g ((s.execute f answer.throws answer.work).setWorker w pc)
      (g.see s (.work w answer) ((s.execute f answer.throws answer.work).setWorker w pc)) := by
  obtain ⟨hdeletes, hserves, hanswers⟩ := hnone
  -- a thunk that is no work of a handler
  have hother : f.handler? = none → (s.execute f answer.throws answer.work).cq = s.cq →
      (s.execute f answer.throws answer.work).suspended = s.suspended →
      HandlerChange s g ((s.execute f answer.throws answer.work).setWorker w pc)
        (g.see s (.work w answer) ((s.execute f answer.throws answer.work).setWorker w pc)) := by
    intro hno hcq hsuspended
    have hsee : g.see s (.work w answer)
        ((s.execute f answer.throws answer.work).setWorker w pc) = g := by
      simp [HandlerLog.see, worksTo, hexecutes, hno, hdeletes, hserves, hanswers]
    rw [hsee]
    obtain ⟨cq, suspended, hexec⟩ := execute_eq s f answer.throws answer.work
    rw [hexec] at hcq hsuspended ⊢
    refine .of_worker rfl ⟨hentered, harmed, ?_⟩ ?_ (fun _ => .refl _) rfl hsuspended rfl rfl
    · rw [hthunks, hhand, List.filterMap_cons, hno]
    · funext q
      exact congrArg (fun cq : QueueId → CompletionQueue =>
        (cq q).pending.filterMap Event.handler?) hcq
  rcases f with ⟨m, _ | _ | h⟩
  · exact hother rfl rfl rfl
  · exact hother rfl rfl rfl
  · have hexec : ∀ e, s.worksTo w answer e = if answer.work = e then [h] else [] := by
      intro e
      rw [worksTo, hexecutes]
      rfl
    have hleave : (s.worker w).thunks.filterMap Thunk.handler? =
        h :: pc.thunks.filterMap Thunk.handler? := by
      rw [hthunks, hhand]
      rfl
    rcases answer with ⟨predicate, next, locked, throws, _ | _ | _⟩
    · -- `Finish`
      obtain ⟨htarget, hrest⟩ := pendingHandlers_finish s
        ((s.execute ⟨m, .finish h⟩ throws .finished).setWorker w pc) h rfl
      rw [see_work, hdeletes, hserves, hanswers, hexec, hexec]
      · exact .of_hand hleave hentered harmed worker_execute rfl rfl hrest (fun _ => rfl)
          (List.append_nil _) rfl (fun _ => List.append_nil _) htarget .execute (List.append_nil _)
          (congrArg (· ++ [h]) (List.append_nil _)) rfl rfl
      · exact hgo
    · -- nobody refers to the handler any more
      rw [see_work, hdeletes, hserves, hanswers, hexec, hexec]
      · exact .of_hand (Q := .stopped) hleave hentered harmed worker_execute rfl rfl
          (fun _ _ => rfl) (fun _ => rfl) (List.append_nil _) rfl (fun hne => absurd rfl hne) rfl
          .stop (List.append_nil _) (List.append_nil _) rfl rfl
      · exact hgo
    · -- the work goes on elsewhere
      rw [see_work, hdeletes, hserves, hanswers, hexec, hexec]
      · exact .of_hand (Q := .suspended) hleave hentered harmed worker_execute rfl rfl
          (fun _ _ => rfl) (fun hne => absurd rfl hne) (List.append_nil _) rfl
          (fun _ => List.append_nil _) rfl .suspend (List.append_nil _) (List.append_nil _) rfl rfl
      · exact hgo

omit [DecidableEq τ] in
/-- The worker takes the first thunks of a sub-queue. -/
private theorem handlerChange_collect {q : AtomicTaskStealingQueue Thunk cfg.nTaskQueues} {j : ℕ}
    (fs rest : List Thunk) {pc : WorkerPc} (hq : s.taskQueue.queues j = fs ++ rest)
    (hq' : q.queues = Function.update s.taskQueue.queues j rest)
    (hthunks : pc.thunks = (s.worker w).thunks ++ fs)
    (hentered : pc.entered = (s.worker w).entered) (harmed : pc.armed = (s.worker w).armed) :
    HandlerChange s g ({ s with taskQueue := q }.setWorker w pc) g := by
  refine .move (P := .subQueue j) (Q := .hand w) (l := fs.filterMap Thunk.handler?)
    (moved_of_worker rfl (fun _ _ _ => rfl) (fun _ _ => rfl) (fun _ => rfl) (fun k hk => ?_)
      (fun _ _ => hentered) (fun _ _ => harmed) (fun _ hne => absurd rfl hne) (fun _ => rfl)
      (fun _ => rfl) rfl (fun _ => rfl) ?_ ?_)
    (.of_served trivial .collect) (fun _ => Or.inl trivial) rfl (List.append_nil _).symm rfl rfl
  · have hkj : k ≠ j := fun heq => hk (by rw [heq])
    show q.queues k = _
    rw [hq', Function.update_of_ne hkj]
  · show ((s.taskQueue.queues j).filterMap Thunk.handler?).Perm
      (_ ++ (q.queues j).filterMap Thunk.handler?)
    rw [hq', Function.update_self, hq, List.filterMap_append]
  · show (Function.update s.worker w pc w).thunks.filterMap Thunk.handler? =
      (s.worker w).thunks.filterMap Thunk.handler? ++ _
    rw [Function.update_self, hthunks, List.filterMap_append]

private theorem handlerChange_loop {pc : WorkerPc} {answer : WorkAnswer}
    (hgo : s.terminated = false) (hidle : s.frame (.worker w) = none) (hpc : s.worker w = pc)
    (hclean : pc.Clean) (h : LoopStep s w answer pc s') :
    HandlerChange s g s' (g.see s (.work w answer) s') := by
  -- nothing is seen
  have hsee : ¬ pc.Handles → g.see s (.work w answer) s' = g :=
    fun hnot => see_of_not_handles (hpc ▸ hnot)
  have hsame : ∀ {pc' : WorkerPc}, s'.worker = Function.update s.worker w pc' →
      SameHands pc pc' → s'.pendingHandlers = s.pendingHandlers →
      (∀ u, SameHeld (s.frame u) (s'.frame u)) → s'.taskQueue.queues = s.taskQueue.queues →
      s'.suspended = s.suspended → s'.handler = s.handler → s'.nextHandler = s.nextHandler →
      HandlerChange s g s' g :=
    fun hworker hhands => .of_worker hworker (hpc ▸ hhands)
  cases h with
  | complete => exact handlerChange_complete hgo hidle hpc
  | stop =>
    rw [hsee id]
    exact hsame rfl ⟨rfl, rfl, rfl⟩ rfl (SameHeld.update (hidle ▸ ⟨rfl, rfl⟩)) rfl rfl rfl rfl
  | pass | stopped | pollNone | pollShutdown | nextSet | polled | leave | stay | popCall
  | ejectCall | ejected | exit =>
    rw [hsee id]
    exact hsame rfl ⟨rfl, rfl, rfl⟩ rfl (fun _ => .refl _) rfl rfl rfl rfl
  | @missed b =>
    rw [hsee id]
    exact hsame rfl ⟨rfl, rfl, by cases b <;> rfl⟩ rfl (fun _ => .refl _) rfl rfl rfl rfl
  | pollEvent _ _ _ he =>
    rw [hsee id]
    exact handlerChange_take hpc he
  | pop hpop =>
    rw [hsee id]
    cases hpop with
    | giveUp | skip => exact hsame rfl ⟨rfl, rfl, rfl⟩ rfl (fun _ => .refl _) rfl rfl rfl rfl
    | @take _ _ _ j f rest _ _ hfront =>
      exact handlerChange_collect [f] rest hfront rfl (by rw [hpc]; rfl) (by rw [hpc]; rfl)
        (by rw [hpc]; rfl)
  | @popped b f =>
    rw [hsee id]
    cases b with
    | true => exact hsame rfl ⟨rfl, rfl, rfl⟩ rfl (fun _ => .refl _) rfl rfl rfl rfl
    | false => cases hclean
  | eject hej =>
    rw [hsee id]
    cases hej with
    | again | finish => exact hsame rfl ⟨rfl, rfl, rfl⟩ rfl (fun _ => .refl _) rfl rfl rfl rfl
    | @swap i acc _ =>
      exact handlerChange_collect _ [] (List.append_nil _).symm rfl (by rw [hpc]; rfl)
        (by rw [hpc]; rfl) (by rw [hpc]; rfl)
  | run | executeNext =>
    exact handlerChange_execute hgo (by rw [hpc]; rfl) (by rw [hpc]; rfl)
      (by simp only [deletes, serves, answers, hpc, and_self]) rfl (by rw [hpc]; rfl)
      (by rw [hpc]; rfl)

/-- The detached work of a handler completes, having gone on elsewhere. -/
private theorem handlerChange_workEnd {h : ℕ} {answer : ApiAnswer}
    (hf : s.frame t = some (.work h)) : HandlerChange s g (s.workEndStep t h answer.stopped)
      (g.see s (.api t answer) (s.workEndStep t h answer.stopped)) := by
  have hover : resumed (s.frame t) = [h] := by rw [hf]; rfl
  have hdrops : ∀ {f : Option Frame}, s.drops t f = [] := by
    intro f
    have hheld : posting (s.frame t) = [] := by rw [hf]; rfl
    unfold drops
    split <;> first | exact hheld | rfl
  have hleave : (resumed (s.frame t)).Perm
      ([h] ++ resumed (Function.update s.frame t none t)) := by
    rw [Function.update_self, hover]
    exact List.Perm.refl _
  -- the other calls
  have hposting : ∀ u, posting (Function.update s.frame t none u) = posting (s.frame u) := by
    intro u
    rcases eq_or_ne u t with rfl | hu
    · rw [Function.update_self, hf]
      rfl
    · rw [Function.update_of_ne hu]
  have hresumed : ∀ u, .resumed u ≠ (.resumed t : HandlerPlace τ) →
      resumed (Function.update s.frame t none u) = resumed (s.frame u) := by
    intro u hne
    have hu : u ≠ t := fun heq => hne (by rw [heq])
    rw [Function.update_of_ne hu]
  rcases answer with ⟨slot, throws, reenters, _ | _⟩
  · -- `Finish`
    obtain ⟨htarget, hrest⟩ := pendingHandlers_finish s (s.workEndStep t h false) h rfl
    refine .move (P := .resumed t) (Q := .queue (s.handler h).cq) (l := [h])
      ⟨hleave, htarget, ?_⟩ (.of_served trivial .complete) (fun hdetached => absurd hdetached id)
      rfl ?_ rfl rfl
    · intro R hne hne'
      cases R with
      | queue q => exact hrest q hne'
      | posting u => exact hposting u
      | resumed u => exact hresumed u hne
      | dropped => exact (congrArg _ hdrops).trans (List.append_nil _)
      | stopped => exact List.append_nil _
      | entered | armed | subQueue | hand | suspended | deleted => rfl
    · simp only [HandlerLog.see, hover, HandlerPlace.finishing, Bool.false_eq_true, if_false]
  · -- nobody refers to the handler any more
    refine .move (P := .resumed t) (Q := .stopped) (l := [h]) ⟨hleave, ?_, ?_⟩
      (.of_served trivial .giveUp) (fun _ => Or.inl trivial) rfl ?_ rfl rfl
    · simp only [handlerPlaces, HandlerLog.see, hover, if_true]
    · intro R hne hne'
      cases R with
      | posting u => exact hposting u
      | resumed u => exact hresumed u hne
      | dropped => exact (congrArg _ hdrops).trans (List.append_nil _)
      | stopped => exact absurd rfl hne'
      | queue | entered | armed | subQueue | hand | suspended | deleted => rfl
    · rfl

theorem handlerChange_of_step (hpushes : s.PushesOk) (hclean : ∀ w, (s.worker w).Clean)
    (hgo : s.terminated = false) (h : Step s a s') :
    HandlerChange s g s' (g.see s a s') := by
  -- a step of a member function other than `post(ThunkType)`
  have hother : ∀ {t : Tid τ} {answer : ApiAnswer} {f : Option Frame} {fr : Frame},
      s.frame t = some fr → posting (some fr) = [] → resumed (some fr) = [] →
      s'.frame = Function.update s.frame t f → posting f = [] → resumed f = [] →
      s'.pendingHandlers = s.pendingHandlers → s'.worker = s.worker →
      s'.taskQueue.queues = s.taskQueue.queues → s'.suspended = s.suspended →
      s'.handler = s.handler → s'.nextHandler = s.nextHandler →
      HandlerChange s g s' (g.see s (.api t answer) s') := by
    intro t answer f fr hf hold hold' hframe hnew hnew' hpending hworker hqueues hsuspended hhandler
      hnext
    have hheld : posting (s.frame t) = [] := by rw [hf, hold]
    have hheld' : resumed (s.frame t) = [] := by rw [hf, hold']
    have hsee : g.see s (.api t answer) s' = g := by
      have hdrops : s.drops t (s'.frame t) = [] := by
        unfold drops
        split <;> first | exact hheld | rfl
      rw [see_api hheld', hdrops, List.append_nil]
    rw [hsee]
    exact .of_frame hframe ⟨hnew.trans hheld.symm, hnew'.trans hheld'.symm⟩ hpending hworker hqueues
      hsuspended hhandler hnext
  cases h with
  | call hmay => exact handlerChange_begin hmay.1
  | push hf hpush => exact handlerChange_push hpushes hf hpush
  | @post t kind id pc answer hf =>
    rcases answer with ⟨slot, throws, reenters, stopped⟩
    rcases pc with - | (_ | _) | i | can
    · exact hother hf rfl rfl rfl rfl rfl rfl rfl rfl rfl rfl rfl
    · exact hother hf rfl rfl rfl rfl rfl rfl rfl rfl rfl rfl rfl
    · exact hother hf rfl rfl rfl rfl rfl rfl rfl rfl rfl rfl rfl
    · cases throws with
      | false =>
        refine hother hf rfl rfl rfl rfl rfl ?_ rfl rfl rfl rfl rfl
        funext q
        have hcq : (s.postStep t kind id false (.creating i)).cq =
            Function.update s.cq (.own i) ((s.cq (.own i)).start (kind.event id)) := rfl
        have hnone : (kind.event id).handler? = none := by cases kind <;> rfl
        rw [pendingHandlers_start hcq, hnone]
        split <;> simp
      | true => exact hother hf rfl rfl rfl rfl rfl rfl rfl rfl rfl rfl rfl
    · exact hother hf rfl rfl rfl rfl rfl rfl rfl rfl rfl rfl rfl
  | runWhile hf hrun => cases hrun <;> exact hother hf rfl rfl rfl rfl rfl rfl rfl rfl rfl rfl rfl
  | @stop t pc answer _ hf hstop =>
    have hnone : resumed (s.frame t) = [] := by rw [hf]; rfl
    have hstay : ∀ {u : State cfg τ}, u.frame = s.frame → u.handlerPlaces g = s.handlerPlaces g →
        u.handler = s.handler → u.nextHandler = s.nextHandler →
        HandlerChange s g u (g.see s (.api t answer) u) := by
      intro u hframe hplaces hhandler hnext
      have hdrops : s.drops t (u.frame t) = [] := by
        rw [hframe, hf]
        rfl
      have hsee : g.see s (.api t answer) u = g := by
        rw [see_api hnone, hdrops, List.append_nil]
      exact .same hsee hplaces hhandler hnext
    cases hstop with
    | yield | selfJoin | abort => exact hstay rfl rfl rfl rfl
    | @halt k q hq =>
      refine hother hf rfl rfl rfl rfl rfl ?_ rfl rfl rfl rfl rfl
      funext q'
      exact congrArg (List.filterMap Event.handler?) (pending_shutdown s q q')
    | win | lose | giveUp | proceed | range | join | joined | clear | lock | publish | keep | swap
    | unlock | done | notify | resume | reenter | relock | reaccept | rerefuse | repush
    | reunlock => exact hother hf rfl rfl rfl rfl rfl rfl rfl rfl rfl rfl rfl
  | attach hf hat => cases hat <;> exact hother hf rfl rfl rfl rfl rfl rfl rfl rfl rfl rfl rfl
  | notify hf hnot => cases hnot <;> exact hother hf rfl rfl rfl rfl rfl rfl rfl rfl rfl rfl rfl
  | workEnd hf => exact handlerChange_workEnd hf
  | fatal => exact .same rfl rfl rfl rfl
  | work _ hidle hpc hloop => exact handlerChange_loop hgo hidle hpc (hpc ▸ hclean _) hloop

end State

end Sgrpc
