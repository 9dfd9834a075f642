import Sgrpc.Context.Posts
import Sgrpc.Queue.Conservation

/-!
# The thunks of a context

A thunk is in the hands of the `post` that brings it until this has stored it in the task queue.
From then on it is in one place, once: in a sub-queue, in the hands of a worker, or executed
(`ThunksOk`). `ThunkStep` says what a step does to the thunks; a `post` returns `true` exactly
when it has read from `is_done_` that the queue is open (`PushesOk`).
-/

namespace Sgrpc

open Interleaving
open AtomicTaskStealingQueue (PushStep PopStep EjectStep)

/-! ### Where the thunks are -/

/-- The thunks that a worker has taken from the task queue and not executed yet. -/
def WorkerPc.thunks : WorkerPc → List Thunk
  | .popping pc => pc.taken
  | .running f => [f]
  | .draining pc => pc.thunks
  | .executing fs => fs
  | _ => []

/-- The output argument of a `try_pop` that has not succeeded is empty. -/
def WorkerPc.Clean : WorkerPc → Prop
  | .popping (.probe x _ _) | .popping (.returned false x) => x = none
  | _ => True

/-- Where a stored thunk can be. -/
inductive ThunkPlace where
  | subQueue (j : ℕ)
  | hand (w : ℕ)
  | executed

/-- What the program counter of `post(ThunkType)` says about its thunk `f`, given what it has read
from `is_done_`. -/
def PushPc.Says (f : Thunk) : PushPc Thunk → Option Bool → Prop
  | .counted g, tested => g = f ∧ tested = none
  | .next g, tested | .probe g _ _, tested => g = f ∧ tested = some false
  | .leaving isDone _, tested => tested = some isDone
  | _, _ => False

/-- The index of the probe is in range. -/
def PushPc.Within (n : ℕ) : PushPc Thunk → Prop
  | .probe _ _ i => i ≤ n
  | _ => True

namespace State

variable {cfg : Config} {τ : Type*} {s s' : State cfg τ} {a : Act τ} {t : Tid τ} {w : ℕ}

/-- The thunks in each place. -/
def thunkPlaces (s : State cfg τ) : ThunkPlace → List Thunk
  | .subQueue j => s.taskQueue.queues j
  | .hand w => (s.worker w).thunks
  | .executed => s.executed

/-- The thunk has been stored by its `post`. -/
def Stored (s : State cfg τ) (f : Thunk) : Prop :=
  (∃ t x, s.frame t = some (.push f (.leaving false x))) ∨ s.returned f = some true

/-! ### What a step does to the thunks -/

/-- What the calls of `post(ThunkType)` are about is the same in both states, but for numbers
handed out. -/
structure SameCalls (s s' : State cfg τ) : Prop where
  tested : s'.tested = s.tested
  returned : s'.returned = s.returned
  nextId : s.nextId ≤ s'.nextId
  push : ∀ t f pc, s'.frame t = some (.push f pc) ↔ s.frame t = some (.push f pc)

/-- Every thread stays where it is. -/
theorem SameCalls.of_frame_eq (hframe : s'.frame = s.frame) (htested : s'.tested = s.tested)
    (hreturned : s'.returned = s.returned) (hid : s.nextId ≤ s'.nextId) : SameCalls s s' :=
  ⟨htested, hreturned, hid, fun _ _ _ => by rw [hframe]⟩

/-- No thunk moves. -/
theorem thunkPlaces_eq (hqueues : s'.taskQueue.queues = s.taskQueue.queues)
    (hhands : ∀ w, (s'.worker w).thunks = (s.worker w).thunks)
    (hexecuted : s'.executed = s.executed) : s'.thunkPlaces = s.thunkPlaces := by
  funext p
  cases p with
  | subQueue j => exact congrFun hqueues j
  | hand w => exact hhands w
  | executed => exact hexecuted

/-- The hands of the workers after a step of one of them. -/
theorem thunks_update {worker : ℕ → WorkerPc} {pc : WorkerPc}
    (h : pc.thunks = (worker w).thunks) (v : ℕ) :
    (Function.update worker w pc v).thunks = (worker v).thunks := by
  rcases eq_or_ne v w with rfl | hv
  · rw [Function.update_self, h]
  · rw [Function.update_of_ne hv]

variable [DecidableEq τ]

/-- A thread moves on outside of `post(ThunkType)`. -/
theorem SameCalls.of_frame {f : Option Frame} (hframe : s'.frame = Function.update s.frame t f)
    (hold : ∀ g pc, s.frame t ≠ some (.push g pc)) (hnew : ∀ g pc, f ≠ some (.push g pc))
    (htested : s'.tested = s.tested) (hreturned : s'.returned = s.returned)
    (hid : s.nextId ≤ s'.nextId) : SameCalls s s' where
  tested := htested
  returned := hreturned
  nextId := hid
  push u g pc := by
    rw [hframe, update_frame_iff]
    constructor
    · rintro (⟨-, hf⟩ | ⟨-, hu⟩)
      · exact absurd hf (hnew g pc)
      · exact hu
    · intro hu
      refine Or.inr ⟨?_, hu⟩
      rintro rfl
      exact hold g pc hu

/-- A step, as the thunks see it. -/
inductive ThunkStep (s : State cfg τ) : State cfg τ → Prop
  | same {s' : State cfg τ} : SameCalls s s' → s'.thunkPlaces = s.thunkPlaces →
      s'.signals = s.signals → ThunkStep s s'
  /-- `post(ThunkType)` is called, with a detached work only by the handler it belongs to. -/
  | call {t : Tid τ} {body : ThunkBody} {s' : State cfg τ} : s.frame t = none →
      (∀ h, body = .finish h →
        ∃ w k i c isOk, s.worker w = .completing k i c (.handler h isOk .armed)) →
      s'.frame = Function.update s.frame t
        (some (.push ⟨s.nextId, body⟩ (.counted ⟨s.nextId, body⟩))) →
      s'.tested = s.tested → s'.returned = s.returned → s'.nextId = s.nextId + 1 →
      s'.thunkPlaces = s.thunkPlaces → s'.signals = s.signals → ThunkStep s s'
  | push {t : Tid τ} {f : Thunk} {pc pc' : PushPc Thunk}
      {q' : AtomicTaskStealingQueue Thunk cfg.nTaskQueues} {ev : List (QueueEvent Thunk)} :
      s.frame t = some (.push f pc) → PushStep s.taskQueue pc q' pc' ev →
      ThunkStep s (s.afterPush t f q' pc' ev)
  /-- A worker takes thunks from a sub-queue. -/
  | collect {w j : ℕ} {fs : List Thunk} {s' : State cfg τ} : SameCalls s s' →
      Moved s.thunkPlaces s'.thunkPlaces (.subQueue j) (.hand w) fs →
      s'.signals = s.signals → ThunkStep s s'
  | execute {w : ℕ} {f : Thunk} {throws : Bool} {s' : State cfg τ} : SameCalls s s' →
      Moved s.thunkPlaces s'.thunkPlaces (.hand w) .executed [f] →
      s'.signals = s.signals ++ f.signals throws → ThunkStep s s'

private theorem thunkStep_begin {c : Call} (h : s.frame t = none) : ThunkStep s (s.begin t c) := by
  have hold : ∀ g pc, s.frame t ≠ some (.push g pc) := by
    intro g pc
    rw [h]
    simp
  cases c with
  | post | schedule => exact .call h (by simp) rfl rfl rfl rfl rfl rfl
  | postAt now deadline =>
    simp only [begin]
    split
    · exact .call h (by simp) rfl rfl rfl rfl rfl rfl
    · exact .same (.of_frame (t := t) rfl hold (by simp) rfl rfl (Nat.le_succ _)) rfl rfl
  | postAfter | postRpc | startRpc | addNotifyAtStopped =>
    exact .same (.of_frame (t := t) rfl hold (by simp) rfl rfl (Nat.le_succ _)) rfl rfl
  | resume h' =>
    simp only [begin]
    split
    · exact .same (.of_frame (t := t) rfl hold (by simp) rfl rfl le_rfl) rfl rfl
    · exact .same (.of_frame_eq rfl rfl rfl le_rfl) rfl rfl
  | runWhile | stop => exact .same (.of_frame (t := t) rfl hold (by simp) rfl rfl le_rfl) rfl rfl
  | makeServer wired =>
    obtain ⟨cq, handler, nextHandler, hwire⟩ := wire_eq s s.nextId 0 wired
    simp only [begin, beginAttach, hwire]
    split
    · exact .same (.of_frame_eq rfl rfl rfl (Nat.le_succ _)) rfl rfl
    · exact .same (.of_frame (t := t) rfl hold (by simp) rfl rfl (Nat.le_succ _)) rfl rfl

private theorem thunkStep_complete {k i : ℕ} {c : PassCounts} {what : Completion}
    (hw : s.frame (.worker w) = none) (hpc : s.worker w = .completing k i c what) :
    ThunkStep s (s.completeStep w k i c what) := by
  -- the worker has no thunk in its hand, before and after the step
  have hplaces : ∀ {u : State cfg τ} {pc : WorkerPc}, u.taskQueue.queues = s.taskQueue.queues →
      u.worker = Function.update s.worker w pc → pc.thunks = [] → u.executed = s.executed →
      u.thunkPlaces = s.thunkPlaces := by
    intro u pc hqueues hworker hthunks hexecuted
    refine thunkPlaces_eq hqueues (fun v => ?_) hexecuted
    rw [hworker]
    exact thunks_update (by rw [hthunks, hpc]; rfl) v
  have hsame : ∀ {u : State cfg τ} {pc : WorkerPc}, u.frame = s.frame → u.tested = s.tested →
      u.returned = s.returned → u.nextId = s.nextId → u.taskQueue.queues = s.taskQueue.queues →
      u.worker = Function.update s.worker w pc → pc.thunks = [] → u.executed = s.executed →
      u.signals = s.signals → ThunkStep s u :=
    fun hframe htested hreturned hid hqueues hworker hthunks hexecuted hsignals =>
      .same (.of_frame_eq hframe htested hreturned hid.ge)
        (hplaces hqueues hworker hthunks hexecuted) hsignals
  rcases what with ⟨⟨id⟩ | ⟨id⟩ | ⟨h⟩, isOk⟩ | ⟨h, isOk, _ | _ | _⟩
  · exact hsame rfl rfl rfl rfl rfl rfl rfl rfl rfl
  · exact hsame rfl rfl rfl rfl rfl rfl rfl rfl rfl
  · exact hsame rfl rfl rfl rfl rfl rfl rfl rfl rfl
  · simp only [completeStep]
    obtain ⟨cq, handler, nextHandler, harm⟩ := arm_eq s (s.handler h).cq (s.handler h).immediate
    rw [harm]
    split <;> exact hsame rfl rfl rfl rfl rfl rfl rfl rfl rfl
  · simp only [completeStep]
    split
    · exact hsame rfl rfl rfl rfl rfl rfl rfl rfl rfl
    · refine .call hw (fun h' heq => ?_) rfl rfl rfl rfl (hplaces rfl rfl rfl rfl) rfl
      cases heq
      exact ⟨w, k, i, c, isOk, hpc⟩
  · exact hsame rfl rfl rfl rfl rfl rfl rfl rfl rfl

/-- A worker executes the first of the thunks in its hand. -/
private theorem thunkStep_execute {f : Thunk} {fs : List Thunk} {pc : WorkerPc} (throws : Bool)
    (work : WorkEnd) (hhand : (s.worker w).thunks = f :: fs) (hpc : pc.thunks = fs) :
    ThunkStep s ((s.execute f throws work).setWorker w pc) := by
  obtain ⟨cq, suspended, hexec⟩ := execute_eq s f throws work
  have hmoved : Moved s.thunkPlaces ((s.execute f throws work).setWorker w pc).thunkPlaces
      (.hand w) .executed [f] := by
    rw [hexec]
    refine ⟨?_, rfl, ?_⟩
    · show (s.worker w).thunks.Perm ([f] ++ (Function.update s.worker w pc w).thunks)
      rw [Function.update_self, hhand, hpc]
      exact List.Perm.refl _
    · rintro (j | v | _) hne hne'
      · rfl
      · have hv : v ≠ w := fun heq => hne (by rw [heq])
        show (Function.update s.worker w pc v).thunks = (s.worker v).thunks
        rw [Function.update_of_ne hv]
      · exact absurd rfl hne'
  rw [hexec] at hmoved ⊢
  exact .execute (.of_frame_eq rfl rfl rfl le_rfl) hmoved rfl

/-- A worker takes the first thunks of a sub-queue. -/
private theorem thunkStep_collect {q : AtomicTaskStealingQueue Thunk cfg.nTaskQueues} {j : ℕ}
    (fs rest : List Thunk) {pc : WorkerPc} (hq : s.taskQueue.queues j = fs ++ rest)
    (hq' : q.queues = Function.update s.taskQueue.queues j rest)
    (hpc : pc.thunks = (s.worker w).thunks ++ fs) :
    ThunkStep s ({ s with taskQueue := q }.setWorker w pc) := by
  have hmoved : Moved s.thunkPlaces ({ s with taskQueue := q }.setWorker w pc).thunkPlaces
      (.subQueue j) (.hand w) fs := by
    refine ⟨?_, ?_, ?_⟩
    · show (s.taskQueue.queues j).Perm (fs ++ q.queues j)
      rw [hq', Function.update_self, hq]
    · show (Function.update s.worker w pc w).thunks = (s.worker w).thunks ++ fs
      rw [Function.update_self, hpc]
    · rintro (k | v | _) hne hne'
      · have hk : k ≠ j := fun heq => hne (by rw [heq])
        show q.queues k = s.taskQueue.queues k
        rw [hq', Function.update_of_ne hk]
      · have hv : v ≠ w := fun heq => hne' (by rw [heq])
        show (Function.update s.worker w pc v).thunks = (s.worker v).thunks
        rw [Function.update_of_ne hv]
      · rfl
  exact .collect (.of_frame_eq rfl rfl rfl le_rfl) hmoved rfl

private theorem thunkStep_loop {pc : WorkerPc} {answer : WorkAnswer}
    (hw : s.frame (.worker w) = none) (hpc : s.worker w = pc) (hclean : pc.Clean)
    (h : LoopStep s w answer pc s') : ThunkStep s s' := by
  have hhand : (s.worker w).thunks = pc.thunks := by rw [hpc]
  -- a step that moves no thunk
  have hplaces : ∀ {u : State cfg τ} {pc' : WorkerPc},
      u.taskQueue.queues = s.taskQueue.queues → u.worker = Function.update s.worker w pc' →
      pc'.thunks = pc.thunks → u.executed = s.executed → u.thunkPlaces = s.thunkPlaces := by
    intro u pc' hqueues hworker hthunks hexecuted
    refine thunkPlaces_eq hqueues (fun v => ?_) hexecuted
    rw [hworker]
    exact thunks_update (hthunks.trans hhand.symm) v
  have hsame : ∀ {u : State cfg τ} {pc' : WorkerPc}, u.frame = s.frame → u.tested = s.tested →
      u.returned = s.returned → u.nextId = s.nextId → u.taskQueue.queues = s.taskQueue.queues →
      u.worker = Function.update s.worker w pc' → pc'.thunks = pc.thunks →
      u.executed = s.executed → u.signals = s.signals → ThunkStep s u :=
    fun hframe htested hreturned hid hqueues hworker hthunks hexecuted hsignals =>
      .same (.of_frame_eq hframe htested hreturned hid.ge)
        (hplaces hqueues hworker hthunks hexecuted) hsignals
  cases h with
  | stop =>
    refine .same (.of_frame (t := .worker w) rfl (fun g pc' => ?_) (by simp) rfl rfl le_rfl)
      (hplaces rfl rfl rfl rfl) rfl
    rw [hw]
    simp
  | pass | stopped | pollNone | pollShutdown | nextSet | polled | leave | stay | popCall
  | ejectCall | ejected | exit => exact hsame rfl rfl rfl rfl rfl rfl rfl rfl rfl
  | @missed b => exact hsame rfl rfl rfl rfl rfl rfl (by cases b <;> rfl) rfl rfl
  | @pollEvent k i c q m e isOk =>
    exact hsame rfl rfl rfl rfl rfl rfl (by cases e <;> rfl) rfl rfl
  | complete => exact thunkStep_complete hw hpc
  | pop hpop =>
    cases hpop with
    | giveUp | skip => exact hsame rfl rfl rfl rfl rfl rfl rfl rfl rfl
    | @take _ _ _ j f rest _ _ hfront =>
      exact thunkStep_collect [f] rest hfront rfl (by rw [hhand]; rfl)
  | @popped b f =>
    cases b with
    | true => exact hsame rfl rfl rfl rfl rfl rfl rfl rfl rfl
    | false => cases hclean
  | run => exact thunkStep_execute answer.throws answer.work hhand rfl
  | eject hej =>
    cases hej with
    | again | finish => exact hsame rfl rfl rfl rfl rfl rfl rfl rfl rfl
    | @swap i acc _ =>
      exact thunkStep_collect _ [] (List.append_nil _).symm rfl (by rw [hhand]; rfl)
  | executeNext => exact thunkStep_execute answer.throws answer.work hhand rfl

theorem clean_loop {pc : WorkerPc} {answer : WorkAnswer} (hpc : pc.Clean)
    (h : LoopStep s w answer pc s') :
    ∃ pc', s'.worker = Function.update s.worker w pc' ∧ pc'.Clean := by
  cases h with
  | complete =>
    obtain ⟨pc', hpc', rfl | ⟨what', rfl⟩⟩ := worker_completeStep s w _ _ _ _
    · exact ⟨_, hpc', trivial⟩
    · exact ⟨_, hpc', trivial⟩
  | run | executeNext => exact ⟨_, worker_execute, trivial⟩
  | popCall => exact ⟨_, rfl, rfl⟩
  | pop hpop =>
    cases hpop with
    | giveUp | skip => exact ⟨_, rfl, hpc⟩
    | take => exact ⟨_, rfl, trivial⟩
  | stop | pass | stopped | pollNone | pollShutdown | pollEvent | nextSet | polled | leave | stay
  | popped | missed | ejectCall | eject | ejected | exit => exact ⟨_, rfl, trivial⟩

theorem clean_of_reachable (h : (contextSystem cfg τ).Reachable s) (v : ℕ) :
    (s.worker v).Clean := by
  have hinv : ∀ v, (s.worker v).Clean := by
    refine h.invariant (I := fun u => ∀ v, (u.worker v).Clean) ?_ fun u a u' _ hI _ hs v => ?_
    · rintro _ rfl v
      trivial
    · rcases loop_of_step (step_spec hs).2 with hsame | ⟨w, answer, -, -, -, hloop⟩
      · rw [hsame.worker]
        exact hI v
      · obtain ⟨pc', hpc', hclean⟩ := clean_loop (hI w) hloop
        rw [hpc']
        rcases eq_or_ne v w with rfl | hv
        · rwa [Function.update_self]
        · rw [Function.update_of_ne hv]
          exact hI v
  exact hinv v

theorem thunkStep_of_step (hclean : ∀ w, (s.worker w).Clean) (h : Step s a s') :
    ThunkStep s s' := by
  -- a thread moves on in another member function
  have hother : ∀ {u : State cfg τ} {t : Tid τ} {g f}, s.frame t = some g →
      (∀ h pc, g ≠ .push h pc) → u.frame = Function.update s.frame t f →
      (∀ h pc, f ≠ some (.push h pc)) → u.tested = s.tested → u.returned = s.returned →
      s.nextId ≤ u.nextId → u.thunkPlaces = s.thunkPlaces → u.signals = s.signals →
      ThunkStep s u := by
    intro u t g f hg hnot hframe hf htested hreturned hid hplaces hsignals
    refine .same (.of_frame hframe (fun h pc heq => ?_) hf htested hreturned hid) hplaces hsignals
    rw [hg] at heq
    exact hnot h pc (Option.some.inj heq)
  cases h with
  | call hmay => exact thunkStep_begin hmay.1
  | push hf hpush => exact .push hf hpush
  | @post t kind id pc answer hf =>
    rcases answer with ⟨slot, _ | _, reenters⟩ <;> rcases pc with - | (_ | _) | i | can <;>
      exact hother hf (by simp) rfl (by simp) rfl rfl le_rfl rfl rfl
  | runWhile hf hrun =>
    cases hrun <;> exact hother hf (by simp) rfl (by simp) rfl rfl le_rfl rfl rfl
  | stop hf hstop =>
    cases hstop with
    | yield | selfJoin | abort => exact .same (.of_frame_eq rfl rfl rfl le_rfl) rfl rfl
    | win | lose | giveUp | proceed | halt | range | join | joined | clear | lock | publish | keep
    | swap | unlock | done | notify | resume | relock | reaccept | rerefuse | repush | reunlock =>
      exact hother hf (by simp) rfl (by simp) rfl rfl le_rfl rfl rfl
    | reenter => exact hother hf (by simp) rfl (by simp) rfl rfl (Nat.le_succ _) rfl rfl
  | attach hf hat => cases hat <;> exact hother hf (by simp) rfl (by simp) rfl rfl le_rfl rfl rfl
  | notify hf hnot => cases hnot <;> exact hother hf (by simp) rfl (by simp) rfl rfl le_rfl rfl rfl
  | @workEnd t h answer hf =>
    obtain ⟨cq, hend⟩ := workEndStep_eq s t h answer.stopped
    rw [hend]
    exact hother hf (by simp) rfl (by simp) rfl rfl le_rfl rfl rfl
  | fatal => exact .same (.of_frame_eq rfl rfl rfl le_rfl) rfl rfl
  | work _ hw hpc hloop => exact thunkStep_loop hw hpc (hpc ▸ hclean _) hloop

/-! ### What `post(ThunkType)` returns -/

/-- What the calls have read from `is_done_` and returned. -/
structure PushesOk (s : State cfg τ) : Prop where
  fresh : ∀ f : Thunk, s.nextId ≤ f.id → s.tested f = none ∧ s.returned f = none
  running : ∀ t f pc, s.frame t = some (.push f pc) →
    f.id < s.nextId ∧ s.returned f = none ∧ pc.Says f (s.tested f)
  unique : ∀ t u f g pc pc', s.frame t = some (.push f pc) → s.frame u = some (.push g pc') →
    f.id = g.id → t = u
  returned : ∀ f b, s.returned f = some b → s.tested f = some (!b)

omit [DecidableEq τ] in
theorem pushesOk_initial : (initial : State cfg τ).PushesOk where
  fresh _ _ := ⟨rfl, rfl⟩
  running _ _ _ hf := by cases hf
  unique _ _ _ _ _ _ hf := by cases hf
  returned _ _ h := by cases h

omit [DecidableEq τ] in
theorem PushesOk.of_same (h : s.PushesOk) (hsame : SameCalls s s') : s'.PushesOk where
  fresh f hid := by
    rw [hsame.tested, hsame.returned]
    exact h.fresh f (hsame.nextId.trans hid)
  running t f pc hf := by
    rw [hsame.tested, hsame.returned]
    obtain ⟨hid, hrest⟩ := h.running t f pc ((hsame.push t f pc).mp hf)
    exact ⟨hid.trans_le hsame.nextId, hrest⟩
  unique t u f g pc pc' hf hg := h.unique t u f g pc pc' ((hsame.push ..).mp hf)
    ((hsame.push ..).mp hg)
  returned f b hb := by
    rw [hsame.tested]
    exact h.returned f b (hsame.returned ▸ hb)

theorem PushesOk.call (h : s.PushesOk) {body : ThunkBody}
    (hframe : s'.frame = Function.update s.frame t
      (some (.push ⟨s.nextId, body⟩ (.counted ⟨s.nextId, body⟩))))
    (htested : s'.tested = s.tested) (hreturned : s'.returned = s.returned)
    (hid : s'.nextId = s.nextId + 1) : s'.PushesOk where
  fresh f hle := by
    have hle' : s.nextId + 1 ≤ f.id := hid ▸ hle
    rw [htested, hreturned]
    exact h.fresh f (Nat.le_of_succ_le hle')
  running u f pc hf := by
    rw [htested, hreturned, hid]
    rw [hframe, update_frame_iff] at hf
    rcases hf with ⟨-, heq⟩ | ⟨-, hf⟩
    · cases heq
      obtain ⟨hnone, hret⟩ := h.fresh ⟨s.nextId, body⟩ le_rfl
      exact ⟨Nat.lt_succ_self _, hret, rfl, hnone⟩
    · obtain ⟨hlt, hrest⟩ := h.running u f pc hf
      exact ⟨Nat.lt_succ_of_lt hlt, hrest⟩
  unique u v f g pc pc' hf hg heq := by
    rw [hframe, update_frame_iff] at hf hg
    rcases hf with ⟨hu, hf⟩ | ⟨-, hf⟩ <;> rcases hg with ⟨hv, hg⟩ | ⟨-, hg⟩
    · rw [hu, hv]
    · cases hf
      exact absurd heq (h.running v g pc' hg).1.ne'
    · cases hg
      exact absurd heq (h.running u f pc hf).1.ne
    · exact h.unique u v f g pc pc' hf hg heq
  returned f b hb := by
    rw [htested]
    exact h.returned f b (hreturned ▸ hb)

/-- A step of the call that brings `f`. -/
theorem PushesOk.update (h : s.PushesOk) {f : Thunk} {pc : PushPc Thunk} {fr : Option Frame}
    (hf : s.frame t = some (.push f pc)) (hframe : s'.frame = Function.update s.frame t fr)
    (hid : s'.nextId = s.nextId) (htested : ∀ g, g ≠ f → s'.tested g = s.tested g)
    (hreturned : ∀ g, g ≠ f → s'.returned g = s.returned g)
    (hnew : ∀ g pc', fr = some (.push g pc') →
      g = f ∧ s'.returned f = none ∧ pc'.Says f (s'.tested f))
    (hret : ∀ b, s'.returned f = some b → s'.tested f = some (!b)) : s'.PushesOk := by
  have hlt := (h.running t f pc hf).1
  -- the thunks of other calls are other thunks
  have hother : ∀ {u g pc'}, u ≠ t → s.frame u = some (.push g pc') → g ≠ f := by
    rintro u g pc' hu hg rfl
    exact hu (h.unique u t g g pc' pc hg hf rfl)
  constructor
  · intro g hle
    have hg : g ≠ f := by
      rintro rfl
      omega
    rw [htested g hg, hreturned g hg]
    exact h.fresh g (hid ▸ hle)
  · intro u g pc' hu
    rw [hid]
    rw [hframe, update_frame_iff] at hu
    rcases hu with ⟨-, heq⟩ | ⟨hne, hu⟩
    · obtain ⟨rfl, hrest⟩ := hnew g pc' heq
      exact ⟨hlt, hrest⟩
    · have hg := hother hne hu
      rw [htested g hg, hreturned g hg]
      exact h.running u g pc' hu
  · intro u v g g' pc' pc'' hu hv heq
    rw [hframe, update_frame_iff] at hu hv
    rcases hu with ⟨rfl, hu⟩ | ⟨-, hu⟩ <;> rcases hv with ⟨rfl, hv⟩ | ⟨-, hv⟩
    · rfl
    · obtain ⟨rfl, -⟩ := hnew g pc' hu
      exact h.unique u v g g' pc pc'' hf hv heq
    · obtain ⟨rfl, -⟩ := hnew g' pc'' hv
      exact h.unique u v g g' pc' pc hu hf heq
    · exact h.unique u v g g' pc' pc'' hu hv heq
  · intro g b hb
    rcases eq_or_ne g f with rfl | hg
    · exact hret b hb
    · rw [htested g hg]
      exact h.returned g b (hreturned g hg ▸ hb)

theorem PushesOk.push (h : s.PushesOk) {f : Thunk} {pc pc' : PushPc Thunk}
    {q' : AtomicTaskStealingQueue Thunk cfg.nTaskQueues} {ev : List (QueueEvent Thunk)}
    (hf : s.frame t = some (.push f pc)) (hs : PushStep s.taskQueue pc q' pc' ev) :
    (s.afterPush t f q' pc' ev).PushesOk := by
  obtain ⟨-, hret, hsays⟩ := h.running t f pc hf
  -- the call goes on, having read nothing
  have hmove : ∀ {u : State cfg τ} {pc''}, u.frame = Function.update s.frame t
      (some (.push f pc'')) → u.nextId = s.nextId → u.tested = s.tested →
      u.returned = s.returned → pc''.Says f (s.tested f) → u.PushesOk := by
    intro u pc'' hframe hid htested hreturned hpc''
    refine h.update hf hframe hid (fun g _ => by rw [htested]) (fun g _ => by rw [hreturned])
      (fun g pc₁ heq => ?_) fun b hb => ?_
    · cases heq
      rw [htested, hreturned]
      exact ⟨rfl, hret, hpc''⟩
    · rw [hreturned, hret] at hb
      cases hb
  -- the call has read `is_done_`
  have htest : ∀ {u : State cfg τ} {pc'' d}, u.frame = Function.update s.frame t
      (some (.push f pc'')) → u.nextId = s.nextId →
      u.tested = Function.update s.tested f (some d) → u.returned = s.returned →
      pc''.Says f (some d) → u.PushesOk := by
    intro u pc'' d hframe hid htested hreturned hpc''
    refine h.update hf hframe hid (fun g hg => ?_) (fun g _ => by rw [hreturned])
      (fun g pc₁ heq => ?_) fun b hb => ?_
    · rw [htested, Function.update_of_ne hg]
    · cases heq
      rw [htested, hreturned, Function.update_self]
      exact ⟨rfl, hret, hpc''⟩
    · rw [hreturned, hret] at hb
      cases hb
  cases hs with
  | refuse =>
    obtain ⟨rfl, -⟩ := hsays
    exact htest rfl rfl rfl rfl rfl
  | accept =>
    obtain ⟨rfl, -⟩ := hsays
    exact htest rfl rfl rfl rfl ⟨rfl, rfl⟩
  | fetch | wrap | busy => exact hmove rfl rfl rfl rfl hsays
  | store => exact hmove rfl rfl rfl rfl hsays.2
  | throw =>
    refine h.update hf rfl rfl (fun _ _ => rfl) (fun _ _ => rfl) (fun _ _ heq => ?_) fun b hb => ?_
    · cases heq
    · have hb' : s.returned f = some b := hb
      rw [hret] at hb'
      cases hb'
  | @leave d x =>
    refine h.update hf rfl rfl (fun _ _ => rfl) (fun g hg => Function.update_of_ne hg ..)
      (fun _ _ heq => ?_) fun b hb => ?_
    · cases heq
    · have hb' : Function.update s.returned f (some !d) f = some b := hb
      rw [Function.update_self] at hb'
      cases hb'
      rw [Bool.not_not]
      exact hsays

theorem PushesOk.step (h : s.PushesOk) (hs : ThunkStep s s') : s'.PushesOk := by
  cases hs with
  | same hsame | collect hsame | execute hsame => exact h.of_same hsame
  | call _ _ hframe htested hreturned hid => exact h.call hframe htested hreturned hid
  | push hf hpush => exact h.push hf hpush

theorem pushesOk_of_reachable (h : (contextSystem cfg τ).Reachable s) : s.PushesOk := by
  refine h.invariant ?_ fun _ _ _ hr hI _ hs =>
    hI.step (thunkStep_of_step (clean_of_reachable hr) (step_spec hs).2)
  rintro _ rfl
  exact pushesOk_initial

/-! ### Where the thunks are -/

/-- Every stored thunk is in one place, and every execution of a thunk of `Scheduler::Op_` has sent
one signal. -/
structure ThunksOk (s : State cfg τ) : Prop where
  linear : Linear s.thunkPlaces
  placed : ∀ f, Placed s.thunkPlaces f ↔ s.Stored f
  signals : ∀ id, (s.signals.map Prod.fst).count id = s.executed.count ⟨id, .complete⟩

omit [DecidableEq τ] in
theorem thunksOk_initial : (initial : State cfg τ).ThunksOk where
  linear := .empty fun p => by cases p <;> rfl
  placed f := by
    refine iff_of_false ?_ ?_
    · rintro ⟨p | p | p, hp⟩ <;> cases hp
    · rintro (⟨t, x, hf⟩ | hret)
      · cases hf
      · cases hret
  signals _ := rfl

omit [DecidableEq τ] in
theorem SameCalls.stored_iff (h : SameCalls s s') (f : Thunk) : s'.Stored f ↔ s.Stored f := by
  simp only [Stored, h.push, h.returned]

omit [DecidableEq τ] in
/-- The thunk of a call in progress has been stored when the call is past the store. -/
theorem PushesOk.stored_iff (h : s.PushesOk) {f : Thunk} {pc : PushPc Thunk}
    (hf : s.frame t = some (.push f pc)) : s.Stored f ↔ ∃ x, pc = .leaving false x := by
  constructor
  · rintro (⟨u, x, hu⟩ | hret)
    · obtain rfl := h.unique t u f f pc _ hf hu rfl
      rw [hf] at hu
      cases hu
      exact ⟨x, rfl⟩
    · rw [(h.running t f pc hf).2.1] at hret
      cases hret
  · rintro ⟨x, rfl⟩
    exact Or.inl ⟨t, x, hf⟩

/-- A step of the call that brings `f` says nothing about the other thunks. -/
theorem stored_iff_of_ne {f g : Thunk} {pc : PushPc Thunk} {fr : Option Frame}
    (hf : s.frame t = some (.push f pc)) (hframe : s'.frame = Function.update s.frame t fr)
    (hnew : ∀ g pc', fr = some (.push g pc') → g = f) (hg : g ≠ f)
    (hreturned : s'.returned g = s.returned g) : s'.Stored g ↔ s.Stored g := by
  simp only [Stored, hreturned, hframe, update_frame_iff]
  refine or_congr_left ⟨?_, ?_⟩
  · rintro ⟨u, x, ⟨-, heq⟩ | ⟨-, hu⟩⟩
    · exact absurd (hnew g _ heq) hg
    · exact ⟨u, x, hu⟩
  · rintro ⟨u, x, hu⟩
    refine ⟨u, x, update_frame_iff.mp (update_frame_of_frame hu fun heq => ?_)⟩
    rw [hf] at heq
    cases heq
    exact hg rfl

omit [DecidableEq τ] in
/-- Steps that move no thunk. -/
theorem ThunksOk.of_same (h : s.ThunksOk) (hplaces : s'.thunkPlaces = s.thunkPlaces)
    (hstored : ∀ f, s'.Stored f ↔ s.Stored f) (hsignals : s'.signals = s.signals) :
    s'.ThunksOk where
  linear := hplaces ▸ h.linear
  placed f := by rw [hplaces, h.placed, hstored]
  signals id := by
    have hexecuted : s'.executed = s.executed := congrFun hplaces .executed
    rw [hsignals, hexecuted, h.signals]

theorem ThunksOk.push (h : s.ThunksOk) (hpushes : s.PushesOk) {f : Thunk} {pc pc' : PushPc Thunk}
    {q' : AtomicTaskStealingQueue Thunk cfg.nTaskQueues} {ev : List (QueueEvent Thunk)}
    (hf : s.frame t = some (.push f pc)) (hs : PushStep s.taskQueue pc q' pc' ev) :
    (s.afterPush t f q' pc' ev).ThunksOk := by
  have hpushes' := hpushes.push hf hs
  have hbefore := hpushes.stored_iff hf
  -- a step that does not store the thunk
  have hsame : ∀ {u : State cfg τ} {fr}, u.PushesOk → u.thunkPlaces = s.thunkPlaces →
      u.signals = s.signals → u.frame = Function.update s.frame t fr →
      (∀ g pc'', fr = some (.push g pc'') → g = f) → (∀ g ≠ f, u.returned g = s.returned g) →
      (u.Stored f ↔ s.Stored f) → u.ThunksOk := by
    intro u fr hu hplaces hsignals hframe hnew hreturned hself
    refine h.of_same hplaces (fun g => ?_) hsignals
    rcases eq_or_ne g f with rfl | hg
    · exact hself
    · exact stored_iff_of_ne hf hframe hnew hg (hreturned g hg)
  have hgo : ∀ {pc''}, (s.afterPush t f q' pc'' ev).frame t = some (.push f pc'') →
      (s.afterPush t f q' pc'' ev).PushesOk → (∀ x, pc ≠ .leaving false x) →
      (∀ x, pc'' ≠ .leaving false x) → ((s.afterPush t f q' pc'' ev).Stored f ↔ s.Stored f) := by
    intro pc'' hframe hok hpc hpc''
    rw [hok.stored_iff hframe, hbefore]
    simp [hpc, hpc'']
  -- the call is over
  have hgone : ∀ v pc₁, Function.update s.frame t none v ≠ some (.push f pc₁) := by
    intro v pc₁ hv
    rcases update_frame_iff.mp hv with ⟨-, heq⟩ | ⟨hne, hv'⟩
    · cases heq
    · exact hne (hpushes.unique v t f f pc₁ pc hv' hf rfl)
  cases hs with
  | refuse | accept | fetch | wrap | busy =>
    refine hsame hpushes' rfl rfl rfl (fun g pc₁ heq => ?_) (fun _ _ => rfl)
      (hgo (Function.update_self ..) hpushes' (by simp) (by simp))
    cases heq
    rfl
  | throw =>
    refine hsame hpushes' rfl rfl rfl (fun _ _ heq => ?_) (fun _ _ => rfl)
      (iff_of_false ?_ (by simp [hbefore]))
    · cases heq
    · rintro (⟨v, x, hv⟩ | hret)
      · exact hgone v _ hv
      · have hret' : s.returned f = some true := hret
        rw [(hpushes.running t f _ hf).2.1] at hret'
        cases hret'
  | @leave d x =>
    refine hsame hpushes' rfl rfl rfl (fun _ _ heq => ?_) (fun g hg => Function.update_of_ne hg ..)
      ?_
    · cases heq
    · have hreturned : (s.afterPush t f
          { s.taskQueue with inPush := AtomicTaskStealingQueue.unbump s.taskQueue.inPush }
          (.returned (!d) x) []).returned f = some !d := Function.update_self ..
      rw [hbefore, Stored, hreturned]
      constructor
      · rintro (⟨v, y, hv⟩ | hd)
        · exact absurd hv (hgone v _)
        · exact ⟨x, by simpa using hd⟩
      · rintro ⟨y, hy⟩
        cases hy
        exact Or.inr rfl
  | @store g o i j =>
    obtain ⟨rfl, -⟩ := (hpushes.running t f _ hf).2.2
    have hfresh : ¬ Placed s.thunkPlaces g := by
      rw [h.placed, hbefore]
      simp
    have hins : Inserted s.thunkPlaces
        (s.afterPush t g (s.taskQueue.setQueue j (s.taskQueue.queues j ++ [g]))
          (.leaving false none) [.stored j g]).thunkPlaces (.subQueue j) g := by
      refine ⟨Function.update_self .., ?_⟩
      rintro (k | v | _) hne
      · have hk : k ≠ j := fun heq => hne (by rw [heq])
        exact Function.update_of_ne hk ..
      · rfl
      · rfl
    refine ⟨h.linear.insert hins hfresh, fun g' => ?_, h.signals⟩
    rw [hins.placed_iff, h.placed]
    rcases eq_or_ne g' g with rfl | hg
    · rw [hpushes'.stored_iff (Function.update_self ..)]
      simp
    · have hother : (s.afterPush t g (s.taskQueue.setQueue j (s.taskQueue.queues j ++ [g]))
          (.leaving false none) [.stored j g]).Stored g' ↔ s.Stored g' := by
        refine stored_iff_of_ne hf rfl (fun _ _ heq => ?_) hg rfl
        cases heq
        rfl
      rw [hother]
      simp [hg]

theorem ThunksOk.step (h : s.ThunksOk) (hpushes : s.PushesOk) (hs : ThunkStep s s') :
    s'.ThunksOk := by
  cases hs with
  | same hsame hplaces hsignals => exact h.of_same hplaces hsame.stored_iff hsignals
  | @call t body _ hidle _ hframe _ hreturned _ hplaces hsignals =>
    refine h.of_same hplaces (fun f => ?_) hsignals
    simp only [Stored, hreturned, hframe, update_frame_iff]
    refine or_congr_left ⟨?_, ?_⟩
    · rintro ⟨u, x, ⟨-, heq⟩ | ⟨-, hu⟩⟩
      · cases heq
      · exact ⟨u, x, hu⟩
    · rintro ⟨u, x, hu⟩
      exact ⟨u, x, update_frame_iff.mp (update_frame_of_frame hu (by simp [hidle]))⟩
  | push hf hpush => exact h.push hpushes hf hpush
  | collect hsame hmoved hsignals =>
    refine ⟨h.linear.move hmoved (by simp), fun f => ?_, fun id => ?_⟩
    · rw [hmoved.placed_iff (by simp), h.placed, hsame.stored_iff]
    · have hexecuted : s'.executed = s.executed := hmoved.rest .executed (by simp) (by simp)
      rw [hsignals, hexecuted, h.signals]
  | @execute w f throws _ hsame hmoved hsignals =>
    refine ⟨h.linear.move hmoved (by simp), fun g => ?_, fun id => ?_⟩
    · rw [hmoved.placed_iff (by simp), h.placed, hsame.stored_iff]
    · have hexecuted : s'.executed = s.executed ++ [f] := hmoved.target
      rw [hsignals, hexecuted, List.map_append, List.count_append, List.count_append, h.signals]
      rcases f with ⟨n, _ | _ | m⟩ <;> simp [Thunk.signals, List.count_singleton]

theorem thunksOk_of_reachable (h : (contextSystem cfg τ).Reachable s) : s.ThunksOk := by
  refine h.invariant ?_ fun _ _ _ hr hI _ hs => hI.step (pushesOk_of_reachable hr)
    (thunkStep_of_step (clean_of_reachable hr) (step_spec hs).2)
  rintro _ rfl
  exact thunksOk_initial

/-! ### Which sub-queues are used -/

/-- Every probe is of a sub-queue that exists. -/
structure ProbesOk (s : State cfg τ) : Prop where
  within : ∀ t f pc, s.frame t = some (.push f pc) → pc.Within cfg.nTaskQueues
  used : ∀ j, s.taskQueue.queues j ≠ [] → j < cfg.nTaskQueues

theorem ProbesOk.push (h : s.ProbesOk) {f : Thunk} {pc pc' : PushPc Thunk}
    {q' : AtomicTaskStealingQueue Thunk cfg.nTaskQueues} {ev : List (QueueEvent Thunk)}
    (hf : s.frame t = some (.push f pc)) (hs : PushStep s.taskQueue pc q' pc' ev) :
    (s.afterPush t f q' pc' ev).ProbesOk := by
  have hwithin := h.within t f pc hf
  have hmove : ∀ {u : State cfg τ} {fr}, u.frame = Function.update s.frame t fr →
      (∀ g qc, fr = some (.push g qc) → qc.Within cfg.nTaskQueues) →
      ∀ v g qc, u.frame v = some (.push g qc) → qc.Within cfg.nTaskQueues := by
    intro u fr hframe hnew v g qc hv
    rw [hframe, update_frame_iff] at hv
    rcases hv with ⟨-, heq⟩ | ⟨-, hv⟩
    · exact hnew g qc heq
    · exact h.within v g qc hv
  cases hs with
  | refuse | accept | wrap | throw | leave =>
    refine ⟨hmove rfl fun g qc heq => ?_, h.used⟩
    cases heq <;> trivial
  | fetch =>
    refine ⟨hmove rfl fun g qc heq => ?_, h.used⟩
    cases heq
    exact Nat.zero_le _
  | busy hi =>
    refine ⟨hmove rfl fun g qc heq => ?_, h.used⟩
    cases heq
    exact Nat.lt_of_le_of_ne hwithin hi
  | @store g o i j hi hj =>
    refine ⟨hmove rfl fun g qc heq => ?_, fun k hk => ?_⟩
    · cases heq
      trivial
    · have hk' : Function.update s.taskQueue.queues j (s.taskQueue.queues j ++ [g]) k ≠ [] := hk
      rcases eq_or_ne k j with rfl | hne
      · have hlt : i < cfg.nTaskQueues := Nat.lt_of_le_of_ne hwithin hi
        rw [hj]
        exact Nat.mod_lt _ (Nat.zero_lt_of_lt hlt)
      · rw [Function.update_of_ne hne] at hk'
        exact h.used k hk'

theorem ProbesOk.step (h : s.ProbesOk) (hs : ThunkStep s s') : s'.ProbesOk := by
  cases hs with
  | same hsame hplaces =>
    refine ⟨fun t f pc hf => h.within t f pc ((hsame.push t f pc).mp hf), fun j hj => ?_⟩
    have hqueue : s'.taskQueue.queues j = s.taskQueue.queues j := congrFun hplaces (.subQueue j)
    exact h.used j (hqueue ▸ hj)
  | call _ _ hframe _ _ _ hplaces =>
    refine ⟨fun t f pc hf => ?_, fun j hj => ?_⟩
    · rw [hframe, update_frame_iff] at hf
      rcases hf with ⟨-, heq⟩ | ⟨-, hf⟩
      · cases heq
        trivial
      · exact h.within t f pc hf
    · have hqueue : s'.taskQueue.queues j = s.taskQueue.queues j := congrFun hplaces (.subQueue j)
      exact h.used j (hqueue ▸ hj)
  | push hf hpush => exact h.push hf hpush
  | @collect w k fs _ hsame hmoved =>
    refine ⟨fun t f pc hf => h.within t f pc ((hsame.push t f pc).mp hf), fun j hj => ?_⟩
    obtain ⟨f, hf⟩ := List.exists_mem_of_ne_nil _ hj
    have hmem : f ∈ s'.thunkPlaces (.subQueue j) := hf
    rcases hmoved.mem_cases hmem with hold | ⟨heq, -⟩
    · exact h.used j (List.ne_nil_of_mem hold)
    · cases heq
  | @execute w f throws _ hsame hmoved =>
    refine ⟨fun t f pc hf => h.within t f pc ((hsame.push t f pc).mp hf), fun j hj => ?_⟩
    have hqueue : s'.taskQueue.queues j = s.taskQueue.queues j :=
      hmoved.rest (.subQueue j) (by simp) (by simp)
    exact h.used j (hqueue ▸ hj)

theorem probesOk_of_reachable (h : (contextSystem cfg τ).Reachable s) : s.ProbesOk := by
  refine h.invariant ?_ fun _ _ _ hr hI _ hs =>
    hI.step (thunkStep_of_step (clean_of_reachable hr) (step_spec hs).2)
  rintro _ rfl
  refine ⟨fun _ _ _ hf => ?_, fun _ hj => absurd rfl hj⟩
  cases hf

end State

end Sgrpc
