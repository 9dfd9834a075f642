import Mathlib.Data.Set.Insert
import Sgrpc.Interleaving.Linearizable
import Sgrpc.Queue.Drain

/-!
# The task-stealing queue is a bag that can be closed

What the queue is for, whatever its sub-queues, locks and counters do: a `Bag` of thunks that can
be closed. A `push` puts its thunk into the bag or is refused by a closed one, a `try_pop` takes any
thunk or gives up, and a `stop_and_eject` closes the bag and takes some of its thunks, each of them
at once. Every history of concurrent calls is one of such calls (`linearizable`).

A `push` takes effect when it reads `is_done_`, although it stores its thunk later, if
`std::bad_alloc` does not prevent it. A `stop_and_eject` takes effect when it sets `is_done_`,
although it collects its thunks later, and some of them have not even been stored by then. So what
is in the bag depends on the `Fate` of the thunks that are under way.
-/

namespace Sgrpc

open Interleaving
open AtomicTaskStealingQueue (PushStep PopStep EjectStep)

variable {ι : Type*} {n : ℕ}

/-! ### The bag -/

/-- A call of a member function of the queue. -/
inductive QueueCall (ι : Type*) where
  | push (c : ι)
  | pop (p : ι)
  | eject (e : ι)
  deriving DecidableEq

/-- How a call ends. -/
inductive QueueResult (ι : Type*) where
  | pushed (accepted : Bool)
  /-- A `push` that `std::bad_alloc` has left. -/
  | threw
  | popped (thunk : Option ι)
  /-- The thunks in the deque that `stop_and_eject` returns. -/
  | ejected (thunks : Set ι)

/-- A bag of thunks, each of them named by the `push` that brings it. -/
@[ext]
structure Bag (ι : Type*) where
  thunks : Set ι
  closed : Bool

/-- What a call does to the bag. -/
inductive Bag.Effect : QueueCall ι → Bag ι → QueueResult ι → Bag ι → Prop
  | refuse {c b} : b.closed = true → Effect (.push c) b (.pushed false) b
  | put {c b} : b.closed = false → c ∉ b.thunks →
      Effect (.push c) b (.pushed true) ⟨insert c b.thunks, false⟩
  | throw {c b} : b.closed = false → Effect (.push c) b .threw b
  | take {p b c} : c ∈ b.thunks →
      Effect (.pop p) b (.popped (some c)) ⟨b.thunks \ {c}, b.closed⟩
  | giveUp {p b} : Effect (.pop p) b (.popped none) b
  | close {e b fs} : fs ⊆ b.thunks → Effect (.eject e) b (.ejected fs) ⟨b.thunks \ fs, true⟩

/-- The bag that can be closed. -/
def closableBag (ι : Type*) : Object (QueueCall ι) (QueueResult ι) (Bag ι) where
  init := ⟨∅, false⟩
  effect := Bag.Effect

/-! ### The histories of the queue -/

/-- How the `push` has ended. -/
def PushPc.result : PushPc ι → Option (QueueResult ι)
  | .returned accepted _ => some (.pushed accepted)
  | .threw _ => some .threw
  | _ => none

/-- How the `try_pop` has ended. The output argument counts only if it returns `true`. -/
def PopPc.result : PopPc ι → Option (QueueResult ι)
  | .returned popped x => some (.popped (if popped then x else none))
  | _ => none

/-- How the `stop_and_eject` has ended. -/
def EjectPc.result : EjectPc ι → Option (QueueResult ι)
  | .returned thunks => some (.ejected {c | c ∈ thunks})
  | _ => none

/-- What is seen of the calls on a queue. -/
def queueCalls (ι : Type*) [DecidableEq ι] (n : ℕ) :
    Calls (QueueState ι n) (QueueAct ι) (QueueCall ι) (QueueResult ι) where
  caller
    | .push c _ => .push c
    | .pop p _ => .pop p
    | .eject e => .eject e
  idle s
    | .push c => s.push c = .idle
    | .pop p => s.pop p = .idle
    | .eject e => s.eject e = .idle
  answer s
    | .push c => (s.push c).result
    | .pop p => (s.pop p).result
    | .eject e => (s.eject e).result

/-- The queue with the history of its calls. -/
def queueHistories (ι : Type*) [DecidableEq ι] (n : ℕ) :
    System (QueueState ι n × List (CallEvent (QueueCall ι) (QueueResult ι))) (QueueAct ι) :=
  (queueSystem ι n).histories (queueCalls ι n)

/-! ### What will become of a thunk -/

/-- What becomes of a thunk whose `push` has read `is_done_ == false`. -/
inductive Fate (ι : Type*) where
  /-- A `try_pop` takes it, or nobody does. -/
  | kept
  /-- It is never stored. -/
  | threw
  /-- This `stop_and_eject` collects it. -/
  | ejected (e : ι)

/-- How the `push` ends. -/
def Fate.result : Fate ι → QueueResult ι
  | .kept | .ejected _ => .pushed true
  | .threw => .threw

theorem Fate.result_of_ne {f : Fate ι} (h : f ≠ .threw) : f.result = .pushed true := by
  cases f with
  | kept | ejected => rfl
  | threw => exact absurd rfl h

theorem PushPc.Stored.not_storing {pc : PushPc ι} (h : pc.Stored) : ¬ pc.Storing := by
  cases pc <;> simp_all [PushPc.Stored, PushPc.Storing]

/-- Where a `push` is in the history, if its thunk has this fate. -/
def PushPc.phase (f : Fate ι) : PushPc ι → CallPhase (QueueResult ι)
  | .idle => .idle
  | .counted _ => .called
  | .next _ | .probe _ _ _ => .done f.result
  | .leaving isDone _ => .done (.pushed !isDone)
  | .returned _ _ | .threw _ => .returned

theorem PushPc.phase_congr {f f' : Fate ι} (h : f'.result = f.result) (pc : PushPc ι) :
    pc.phase f' = pc.phase f := by
  cases pc <;> simp [phase, h]

/-- Where a `try_pop` is in the history. -/
def PopPc.phase : PopPc ι → CallPhase (QueueResult ι)
  | .idle => .idle
  | .probe _ _ _ => .called
  | .returned _ _ => .returned

/-- Where a `stop_and_eject` is in the history, if it is still going to collect `fs`. -/
def EjectPc.phase (fs : Set ι) : EjectPc ι → CallPhase (QueueResult ι)
  | .idle => .idle
  | .sweep _ thunks => .done (.ejected ({c | c ∈ thunks} ∪ fs))
  | .returned _ => .returned

theorem EjectPc.phase_congr {pc : EjectPc ι} {fs fs' : Set ι} (h : pc ≠ .idle → fs' = fs) :
    pc.phase fs' = pc.phase fs := by
  cases pc with
  | idle | returned => rfl
  | sweep => rw [h (by simp)]

namespace QueueState

variable {s s' : QueueState ι n} {g g' : ι → Fate ι} {a : QueueAct ι} {c e p : ι}

/-- The thunk is in a sub-queue, or is going to be there. -/
def Live (s : QueueState ι n) (g : ι → Fate ι) (c : ι) : Prop :=
  ((s.push c).Storing ∧ g c ≠ .threw) ∨ ∃ j, c ∈ s.queue.queues j

/-- The thunks that the `stop_and_eject` is still going to collect. -/
def claimed (s : QueueState ι n) (g : ι → Fate ι) (e : ι) : Set ι :=
  {c | s.Live g c ∧ g c = .ejected e}

/-- The bag, if the thunks have these fates. -/
def bag (s : QueueState ι n) (g : ι → Fate ι) : Bag ι where
  thunks := {c | s.Live g c ∧ ∀ e, g c = .ejected e → s.eject e = .idle}
  closed := s.queue.isDone

/-- Where the calls are in the history, if the thunks have these fates. -/
def phase (s : QueueState ι n) (g : ι → Fate ι) : QueueCall ι → CallPhase (QueueResult ι)
  | .push c => (s.push c).phase (g c)
  | .pop p => (s.pop p).phase
  | .eject e => (s.eject e).phase (s.claimed g e)

/-- The thunks may have these fates. -/
structure MayCome (s : QueueState ι n) (g : ι → Fate ι) : Prop where
  unreturned : ∀ c e fs, s.Live g c → g c = .ejected e → s.eject e ≠ .returned fs
  stored : ∀ c, (s.push c).Stored → g c ≠ .threw

/-- A `stop_and_eject` begins with setting `is_done_`. -/
def Signals (s : QueueState ι n) : Prop := ∀ e, s.eject e ≠ .idle → s.queue.isDone = true

theorem exists_mem_update {L : ℕ → List ι} {j : ℕ} {fs : List ι} :
    (∃ k, c ∈ Function.update L j fs k) ↔ c ∈ fs ∨ ∃ k, k ≠ j ∧ c ∈ L k := by
  constructor
  · rintro ⟨k, hk⟩
    rcases eq_or_ne k j with rfl | hne
    · exact Or.inl (by simpa using hk)
    · exact Or.inr ⟨k, hne, by simpa [hne] using hk⟩
  · rintro (hc | ⟨k, hne, hk⟩)
    · exact ⟨j, by simpa using hc⟩
    · exact ⟨k, by simpa [hne] using hk⟩

theorem live_congr (hstoring : ∀ d, (s'.push d).Storing ↔ (s.push d).Storing)
    (hqueues : s'.queue.queues = s.queue.queues) (hthrew : g' c = .threw ↔ g c = .threw) :
    s'.Live g' c ↔ s.Live g c := by
  simp only [Live, hstoring, hqueues, Ne, hthrew]

/-- The bag depends on the thunks that are live, and on their fates. -/
theorem bag_congr (hlive : ∀ d, s'.Live g' d ↔ s.Live g d) (hfate : ∀ d, s.Live g d → g' d = g d)
    (hidle : ∀ e, s'.eject e = .idle ↔ s.eject e = .idle)
    (hdone : s'.queue.isDone = s.queue.isDone) : s'.bag g' = s.bag g := by
  refine Bag.ext (Set.ext fun d => ?_) hdone
  simp only [bag, Set.mem_ofPred_eq, hlive, hidle]
  exact and_congr_right fun hd => by rw [hfate d hd]

theorem claimed_congr (hlive : ∀ d, s'.Live g' d ↔ s.Live g d)
    (hfate : ∀ d, s.Live g d → g' d = g d) (e : ι) : s'.claimed g' e = s.claimed g e := by
  refine Set.ext fun d => ?_
  simp only [claimed, Set.mem_ofPred_eq, hlive]
  exact and_congr_right fun hd => by rw [hfate d hd]

variable [DecidableEq ι]

section Phases

variable {q : AtomicTaskStealingQueue ι n} {ev : List (QueueEvent ι)}

theorem phase_afterPush {pc : PushPc ι} (hresult : ∀ d, d ≠ c → (g' d).result = (g d).result)
    (hclaimed : ∀ e, s.eject e ≠ .idle → (s.afterPush c q pc ev).claimed g' e = s.claimed g e) :
    (s.afterPush c q pc ev).phase g' =
      Function.update (s.phase g) (.push c) (pc.phase (g' c)) := by
  refine Function.eq_update_iff.mpr ⟨by simp [phase], fun i hi => ?_⟩
  cases i with
  | push d =>
    have hd : d ≠ c := fun heq => hi (heq ▸ rfl)
    simp only [phase, push_afterPush, Function.update_of_ne hd]
    exact PushPc.phase_congr (hresult d hd) _
  | pop p => rfl
  | eject e => exact EjectPc.phase_congr (hclaimed e)

theorem phase_afterPop {pc : PopPc ι} (hresult : ∀ d, (g' d).result = (g d).result)
    (hclaimed : ∀ e, s.eject e ≠ .idle → (s.afterPop p q pc ev).claimed g' e = s.claimed g e) :
    (s.afterPop p q pc ev).phase g' = Function.update (s.phase g) (.pop p) pc.phase := by
  refine Function.eq_update_iff.mpr ⟨by simp [phase], fun i hi => ?_⟩
  cases i with
  | push d => exact PushPc.phase_congr (hresult d) _
  | pop r =>
    have hr : r ≠ p := fun heq => hi (heq ▸ rfl)
    simp [phase, hr]
  | eject e => exact EjectPc.phase_congr (hclaimed e)

theorem phase_afterEject {pc : EjectPc ι} (hresult : ∀ d, (g' d).result = (g d).result)
    (hclaimed : ∀ r, r ≠ e → (s.afterEject e q pc ev).claimed g' r = s.claimed g r) :
    (s.afterEject e q pc ev).phase g' = Function.update (s.phase g) (.eject e)
      (pc.phase ((s.afterEject e q pc ev).claimed g' e)) := by
  refine Function.eq_update_iff.mpr ⟨by simp [phase], fun i hi => ?_⟩
  cases i with
  | push d => exact PushPc.phase_congr (hresult d) _
  | pop r => rfl
  | eject r =>
    have hr : r ≠ e := fun heq => hi (heq ▸ rfl)
    simp [phase, hr, hclaimed r hr]

theorem events_push {pc : PushPc ι} {answer : OptimisiticLockingQueue.PushAnswer} :
    (queueCalls ι n).events s (.push c answer) (s.afterPush c q pc ev) =
      (if s.push c = .idle then [.called (.push c)] else []) ++
        (pc.result.map (.returned (.push c))).toList := by
  simp [Calls.events, queueCalls]

theorem events_pop {pc : PopPc ι} {locked : Bool} :
    (queueCalls ι n).events s (.pop p locked) (s.afterPop p q pc ev) =
      (if s.pop p = .idle then [.called (.pop p)] else []) ++
        (pc.result.map (.returned (.pop p))).toList := by
  simp [Calls.events, queueCalls]

theorem events_eject {pc : EjectPc ι} :
    (queueCalls ι n).events s (.eject e) (s.afterEject e q pc ev) =
      (if s.eject e = .idle then [.called (.eject e)] else []) ++
        (pc.result.map (.returned (.eject e))).toList := by
  simp [Calls.events, queueCalls]

end Phases

/-- A thunk in a sub-queue has been stored. -/
theorem Conserved.stored_of_mem (h : s.Conserved) (hc : ∃ j, c ∈ s.queue.queues j) :
    (s.push c).Stored := by
  obtain ⟨j, hj⟩ := hc
  exact (h.placed_iff c).mp ⟨.subQueue j, hj⟩

/-! ### What one step does to the bag -/

/-- Whatever may become of the thunks after the step, it is what has become of them before, and the
bag can go on from the one to the other. -/
def Explained (s : QueueState ι n) (a : QueueAct ι) (s' : QueueState ι n) : Prop :=
  ∀ g', s'.MayCome g' → ∃ g, s.MayCome g ∧ ∀ h, (closableBag ι).Run (s.bag g) (s.phase g) h →
    (closableBag ι).Run (s'.bag g') (s'.phase g') (h ++ (queueCalls ι n).events s a s')

omit [DecidableEq ι] in
theorem MayCome.back (h : s'.MayCome g) (hlive : ∀ d, s.Live g d → s'.Live g d)
    (hreturned : ∀ e fs, s.eject e = .returned fs → s'.eject e = .returned fs)
    (hstored : ∀ d, (s.push d).Stored → (s'.push d).Stored) : s.MayCome g where
  unreturned d e fs hd hg hr := h.unreturned d e fs (hlive d hd) hg (hreturned e fs hr)
  stored d hd := h.stored d (hstored d hd)

section Push

variable {q : AtomicTaskStealingQueue ι n} {ev : List (QueueEvent ι)} {pc : PushPc ι}
  {answer : OptimisiticLockingQueue.PushAnswer}

theorem stored_afterPush (hc : (s.push c).Stored → pc.Stored) (d : ι) (hd : (s.push d).Stored) :
    ((s.afterPush c q pc ev).push d).Stored := by
  rcases eq_or_ne d c with rfl | hne
  · simpa using hc hd
  · simpa [hne] using hd

/-- A step of `push` on the same side of its test and of its store. -/
theorem explained_push (hqueues : q.queues = s.queue.queues) (hdone : q.isDone = s.queue.isDone)
    (hstoring : pc.Storing ↔ (s.push c).Storing) (hstored : (s.push c).Stored → pc.Stored)
    (hgo : ∀ b φ h f, b.closed = s.queue.isDone → φ (.push c) = (s.push c).phase f →
      (closableBag ι).Run b φ h → (closableBag ι).Run b (Function.update φ (.push c) (pc.phase f))
        (h ++ (queueCalls ι n).events s (.push c answer) (s.afterPush c q pc ev))) :
    s.Explained (.push c answer) (s.afterPush c q pc ev) := by
  intro g hg
  have hlive : ∀ d, (s.afterPush c q pc ev).Live g d ↔ s.Live g d := fun d =>
    live_congr (fun d => by
      rcases eq_or_ne d c with rfl | hd
      · simpa using hstoring
      · simp [hd]) hqueues Iff.rfl
  refine ⟨g, hg.back (fun d hd => (hlive d).mpr hd) (fun _ _ => id) (stored_afterPush hstored),
    fun h hrun => ?_⟩
  rw [bag_congr hlive (fun _ _ => rfl) (fun _ => Iff.rfl) hdone,
    phase_afterPush (fun _ _ => rfl) fun e _ => claimed_congr hlive (fun _ _ => rfl) e]
  exact hgo _ _ _ _ rfl rfl hrun

theorem explained_pushCall (hpc : s.push c = .idle) : s.Explained (.push c answer)
    (s.afterPush c (s.queue.pushCall c).1 (.counted c) []) := by
  refine explained_push rfl rfl (by simp [hpc, PushPc.Storing]) (by simp [hpc, PushPc.Stored])
    fun b φ h f _ hφ hrun => ?_
  rw [hpc] at hφ
  rw [events_push, if_pos hpc]
  exact hrun.call hφ

/-- `push` reads `is_done_ == false`. -/
theorem explained_accept (hc : s.Conserved) (hsignals : s.Signals) {f : ι}
    (hpc : s.push c = .counted f) (hdone : s.queue.isDone = false) :
    s.Explained (.push c answer) (s.afterPush c s.queue (.next f) [.tested f false]) := by
  intro g hg
  set s' := s.afterPush c s.queue (.next f) [.tested f false]
  have hidle : ∀ e, s.eject e = .idle := by
    intro e
    by_contra hne
    exact absurd (hsignals e hne) (by simp [hdone])
  have hnot : ¬ ∃ j, c ∈ s.queue.queues j :=
    fun hj => by simpa [hpc, PushPc.Stored] using hc.stored_of_mem hj
  have hlive : ∀ d, s'.Live g d ↔ s.Live g d ∨ d = c ∧ g c ≠ .threw := by
    intro d
    rcases eq_or_ne d c with rfl | hd
    · simp [s', Live, hpc, PushPc.Storing, hnot]
    · simp [s', Live, hd]
  have hdead : ¬ s.Live g c := by simp [Live, hpc, PushPc.Storing, hnot]
  have hphase : s'.phase g = Function.update (s.phase g) (.push c) (.done (g c).result) :=
    phase_afterPush (fun _ _ => rfl) fun e hne => absurd (hidle e) hne
  refine ⟨g, hg.back (fun d hd => (hlive d).mpr (Or.inl hd)) (fun _ _ => id)
    (stored_afterPush (by simp [hpc, PushPc.Stored])), fun h hrun => ?_⟩
  have hcalled : s.phase g (.push c) = .called := by simp [phase, hpc, PushPc.phase]
  rw [events_push, if_neg (by simp [hpc]), hphase]
  by_cases hthrew : g c = .threw
  · have hbag : s'.bag g = s.bag g :=
      bag_congr (fun d => by simp [hlive, hthrew]) (fun _ _ => rfl) (fun _ => Iff.rfl) rfl
    rw [hbag, hthrew]
    simpa [PushPc.result, Fate.result] using hrun.effect hcalled (.throw hdone)
  · have hbag : s'.bag g = ⟨insert c (s.bag g).thunks, false⟩ := by
      refine Bag.ext (Set.ext fun d => ?_) hdone
      simp only [bag, Set.mem_insert_iff, Set.mem_ofPred_eq, hlive]
      constructor
      · rintro ⟨hd | ⟨rfl, -⟩, -⟩
        · exact Or.inr ⟨hd, fun e _ => hidle e⟩
        · exact Or.inl rfl
      · rintro (rfl | ⟨hd, he⟩)
        · exact ⟨Or.inr ⟨rfl, hthrew⟩, fun e _ => hidle e⟩
        · exact ⟨Or.inl hd, he⟩
    rw [hbag, Fate.result_of_ne hthrew]
    simpa [PushPc.result] using hrun.effect hcalled (.put hdone fun hmem => hdead hmem.1)

/-- The thunk is stored, as it had to be. -/
theorem explained_store {f : ι} {o i j : ℕ} (hpc : s.push c = .probe f o i) (hf : f = c) :
    s.Explained (.push c answer) (s.afterPush c (s.queue.setQueue j (s.queue.queues j ++ [f]))
      (.leaving false none) [.stored j f]) := by
  subst hf
  intro g hg
  set s' := s.afterPush f (s.queue.setQueue j (s.queue.queues j ++ [f])) (.leaving false none)
    [.stored j f]
  have hkept : g f ≠ .threw := hg.stored f (by simp [s', PushPc.Stored])
  have hlive : ∀ d, s'.Live g d ↔ s.Live g d := by
    intro d
    have hqueues : (∃ k, d ∈ s'.queue.queues k) ↔ d = f ∨ ∃ k, d ∈ s.queue.queues k := by
      simp only [s', queue_afterPush, AtomicTaskStealingQueue.queues_setQueue, exists_mem_update,
        List.mem_append, List.mem_singleton]
      grind
    rcases eq_or_ne d f with rfl | hd
    · simp [Live, hqueues, hpc, PushPc.Storing, hkept]
    · simp only [Live, hqueues, hd, false_or]
      simp [s', hd]
  have hphase : s'.phase g = s.phase g := by
    rw [phase_afterPush (fun _ _ => rfl) fun e _ => claimed_congr hlive (fun _ _ => rfl) e]
    refine Function.update_eq_self_iff.mpr ?_
    simp [phase, hpc, PushPc.phase, Fate.result_of_ne hkept]
  refine ⟨g, hg.back (fun d hd => (hlive d).mpr hd) (fun _ _ => id)
    (stored_afterPush (by simp [hpc, PushPc.Stored])), fun h hrun => ?_⟩
  rw [events_push, if_neg (by simp [hpc]), hphase,
    bag_congr hlive (fun _ _ => rfl) (fun _ => Iff.rfl) rfl]
  simpa [PushPc.result] using hrun

/-- `std::bad_alloc` leaves the function: the thunk has not been in the bag. -/
theorem explained_throw (hc : s.Conserved) {f : ι} {o i : ℕ} (hpc : s.push c = .probe f o i) :
    s.Explained (.push c answer) (s.afterPush c s.queue (.threw f) []) := by
  intro g' hg
  set s' := s.afterPush c s.queue (.threw f) []
  let g := Function.update g' c .threw
  have hnot : ¬ ∃ j, c ∈ s.queue.queues j :=
    fun hj => by simpa [hpc, PushPc.Stored] using hc.stored_of_mem hj
  have hlive : ∀ d, s'.Live g' d ↔ s.Live g d := by
    intro d
    rcases eq_or_ne d c with rfl | hd
    · simp [s', g, Live, PushPc.Storing, hnot]
    · simp [s', g, Live, hd]
  have hdead : ¬ s.Live g c := by simp [g, Live, hnot]
  have hfate : ∀ d, s.Live g d → g' d = g d := by
    intro d hd
    rcases eq_or_ne d c with rfl | hne
    · exact absurd hd hdead
    · simp [g, hne]
  have hphase : s'.phase g' = Function.update (s.phase g) (.push c) .returned :=
    phase_afterPush (fun d hd => by simp [g, hd]) fun e _ => claimed_congr hlive hfate e
  refine ⟨g, ⟨fun d e fs hd hgd => ?_, fun d hd => ?_⟩, fun h hrun => ?_⟩
  · exact hg.unreturned d e fs ((hlive d).mpr hd) (hfate d hd ▸ hgd)
  · rcases eq_or_ne d c with rfl | hne
    · simp [hpc, PushPc.Stored] at hd
    · simpa [g, hne] using hg.stored d (by simpa [s', hne] using hd)
  · rw [events_push, if_neg (by simp [hpc]), hphase,
      bag_congr hlive hfate (fun _ => Iff.rfl) rfl]
    have hdone : s.phase g (.push c) = .done .threw := by
      simp [phase, hpc, PushPc.phase, g, Fate.result]
    simpa [PushPc.result] using hrun.ret hdone

end Push

/-! ### Thunks that leave a sub-queue -/

/-- These thunks have this fate, the others are left alone. -/
def divert (g : ι → Fate ι) (fs : List ι) (x : Fate ι) : ι → Fate ι :=
  fun d => if d ∈ fs then x else g d

theorem live_of_left (hc : s.Conserved) {j : ℕ} {fs rest : List ι} {x : Fate ι}
    (hqueue : s.queue.queues j = fs ++ rest) (hpush : s'.push = s.push)
    (hqueues : s'.queue.queues = Function.update s.queue.queues j rest) (d : ι) :
    s'.Live g d ↔ s.Live (divert g fs x) d ∧ d ∉ fs := by
  by_cases hd : d ∈ fs
  · refine iff_of_false ?_ fun h => h.2 hd
    have hj : d ∈ s.queue.queues j := by
      rw [hqueue]
      exact List.mem_append_left _ hd
    have hnot := (hc.stored_of_mem ⟨j, hj⟩).not_storing
    rintro (⟨hstoring, -⟩ | hmem)
    · exact hnot (hpush ▸ hstoring)
    · rw [hqueues, exists_mem_update] at hmem
      rcases hmem with hrest | ⟨k, hk, hmem⟩
      · have hnodup : (fs ++ rest).Nodup := hqueue ▸ hc.linear.nodup (.subQueue j)
        exact (List.nodup_append.mp hnodup).2.2 d hd d hrest rfl
      · have heq : Place.subQueue k = .subQueue j := hc.linear.unique hmem hj
        cases heq
        exact hk rfl
  · have hmem : (∃ k, d ∈ s'.queue.queues k) ↔ ∃ k, d ∈ s.queue.queues k := by
      rw [hqueues, exists_mem_update]
      constructor
      · rintro (hrest | ⟨k, -, hk⟩)
        · exact ⟨j, by rw [hqueue]; exact List.mem_append_right _ hrest⟩
        · exact ⟨k, hk⟩
      · rintro ⟨k, hk⟩
        rcases eq_or_ne k j with rfl | hne
        · rw [hqueue, List.mem_append] at hk
          exact Or.inl (hk.resolve_left hd)
        · exact Or.inr ⟨k, hne, hk⟩
    simp only [Live, hpush, hmem, divert, hd, if_false, not_false_iff, and_true]

theorem mayCome_divert {fs : List ι} {x : Fate ι} (hg : s'.MayCome g)
    (hlive : ∀ d, s'.Live g d ↔ s.Live (divert g fs x) d ∧ d ∉ fs) (hpush : s'.push = s.push)
    (hreturned : ∀ e ts, s.eject e = .returned ts → s'.eject e = .returned ts)
    (hthrew : x ≠ .threw) (hx : ∀ e ts, x = .ejected e → s.eject e ≠ .returned ts) :
    s.MayCome (divert g fs x) where
  unreturned d e ts hd hgd hr := by
    by_cases hmem : d ∈ fs
    · exact hx e ts (by simpa [divert, hmem] using hgd) hr
    · exact hg.unreturned d e ts ((hlive d).mpr ⟨hd, hmem⟩) (by simpa [divert, hmem] using hgd)
        (hreturned e ts hr)
  stored d hd := by
    by_cases hmem : d ∈ fs
    · simpa [divert, hmem] using hthrew
    · simpa [divert, hmem] using hg.stored d (hpush ▸ hd)

/-- The thunks that leave have been stored, so that their `push` calls have the same end. -/
theorem result_divert (hc : s.Conserved) {j : ℕ} {fs rest : List ι} {x : Fate ι}
    (hg : s'.MayCome g) (hqueue : s.queue.queues j = fs ++ rest) (hpush : s'.push = s.push)
    (hthrew : x ≠ .threw) (d : ι) : (g d).result = (divert g fs x d).result := by
  by_cases hmem : d ∈ fs
  · have hstored : (s'.push d).Stored := by
      rw [hpush]
      exact hc.stored_of_mem ⟨j, by rw [hqueue]; exact List.mem_append_left _ hmem⟩
    rw [Fate.result_of_ne (hg.stored d hstored), divert, if_pos hmem, Fate.result_of_ne hthrew]
  · rw [divert, if_neg hmem]

theorem claimed_divert {fs : List ι} {x : Fate ι}
    (hlive : ∀ d, s'.Live g d ↔ s.Live (divert g fs x) d ∧ d ∉ fs) (hx : x ≠ .ejected e) :
    s'.claimed g e = s.claimed (divert g fs x) e := by
  refine Set.ext fun d => ?_
  simp only [claimed, Set.mem_ofPred_eq, hlive]
  by_cases hmem : d ∈ fs
  · simp [divert, hmem, hx]
  · simp [divert, hmem]

section Pop

variable {q : AtomicTaskStealingQueue ι n} {pc : PopPc ι} {locked : Bool}

/-- A step of `try_pop` that takes nothing. -/
theorem explained_pop (hqueues : q.queues = s.queue.queues) (hdone : q.isDone = s.queue.isDone)
    (hgo : ∀ b φ h, φ (.pop p) = (s.pop p).phase → (closableBag ι).Run b φ h →
      (closableBag ι).Run b (Function.update φ (.pop p) pc.phase)
        (h ++ (queueCalls ι n).events s (.pop p locked) (s.afterPop p q pc []))) :
    s.Explained (.pop p locked) (s.afterPop p q pc []) := by
  intro g hg
  have hlive : ∀ d, (s.afterPop p q pc []).Live g d ↔ s.Live g d := fun d =>
    live_congr (fun _ => Iff.rfl) hqueues Iff.rfl
  refine ⟨g, hg.back (fun d hd => (hlive d).mpr hd) (fun _ _ => id) (fun _ => id),
    fun h hrun => ?_⟩
  rw [bag_congr hlive (fun _ _ => rfl) (fun _ => Iff.rfl) hdone,
    phase_afterPop (fun _ => rfl) fun e _ => claimed_congr hlive (fun _ _ => rfl) e]
  exact hgo _ _ _ rfl hrun

theorem explained_take (hc : s.Conserved) {f : ι} {x : Option ι} {o i j : ℕ} {rest : List ι}
    (hpc : s.pop p = .probe x o i) (hfront : s.queue.queues j = f :: rest) :
    s.Explained (.pop p locked) (s.afterPop p (s.queue.setQueue j rest) (.returned true (some f))
      [.popped j f]) := by
  intro g' hg
  set s' := s.afterPop p (s.queue.setQueue j rest) (.returned true (some f)) [.popped j f]
  let g := divert g' [f] .kept
  have hlive : ∀ d, s'.Live g' d ↔ s.Live g d ∧ d ∉ [f] := live_of_left hc hfront rfl rfl
  have hkept : g f = .kept := by simp [g, divert]
  have hphase : s'.phase g' = Function.update (s.phase g) (.pop p) .returned :=
    phase_afterPop (result_divert hc hg hfront rfl (by simp)) fun e _ =>
      claimed_divert hlive (by simp)
  have hbag : s'.bag g' = ⟨(s.bag g).thunks \ {f}, (s.bag g).closed⟩ := by
    refine Bag.ext (Set.ext fun d => ?_) rfl
    simp only [bag, Set.mem_ofPred_eq, Set.mem_sdiff, Set.mem_singleton_iff, hlive]
    by_cases hd : d = f
    · simp [hd]
    · simp [g, divert, hd, s']
  refine ⟨g, mayCome_divert hg hlive rfl (fun _ _ => id) (by simp) (by simp), fun h hrun => ?_⟩
  have hmem : f ∈ (s.bag g).thunks := by
    refine ⟨Or.inr ⟨j, by simp [hfront]⟩, fun e he => ?_⟩
    rw [hkept] at he
    cases he
  have hcalled : s.phase g (.pop p) = .called := by simp [phase, hpc, PopPc.phase]
  rw [events_pop, if_neg (by simp [hpc]), hphase, hbag]
  exact hrun.effect_ret hcalled (.take hmem)

end Pop

section Eject

variable {q : AtomicTaskStealingQueue ι n} {ev : List (QueueEvent ι)} {pc : EjectPc ι}

theorem idle_afterEject (hpc : s.eject e ≠ .idle) (hpc' : pc ≠ .idle) (r : ι) :
    (s.afterEject e q pc ev).eject r = .idle ↔ s.eject r = .idle := by
  rcases eq_or_ne r e with rfl | hne
  · simp [hpc, hpc']
  · simp [hne]

theorem returned_afterEject (hpc : ∀ fs, s.eject e ≠ .returned fs) (r : ι) (fs : List ι)
    (hr : s.eject r = .returned fs) : (s.afterEject e q pc ev).eject r = .returned fs := by
  rcases eq_or_ne r e with rfl | hne
  · exact absurd hr (hpc fs)
  · simpa [hne] using hr

/-- `stop_and_eject` closes the bag and takes what it is going to collect. -/
theorem explained_ejectCall (hpc : s.eject e = .idle) : s.Explained (.eject e)
    (s.afterEject e s.queue.ejectCall.1 (.sweep 0 []) []) := by
  intro g hg
  set s' := s.afterEject e s.queue.ejectCall.1 (.sweep 0 []) []
  have hlive : ∀ d, s'.Live g d ↔ s.Live g d := fun d =>
    live_congr (fun _ => Iff.rfl) rfl Iff.rfl
  have hclaimed : s'.claimed g = s.claimed g :=
    funext fun e => claimed_congr hlive (fun _ _ => rfl) e
  have hbag : s'.bag g = ⟨(s.bag g).thunks \ s.claimed g e, true⟩ := by
    refine Bag.ext (Set.ext fun d => ?_) rfl
    simp only [bag, claimed, Set.mem_ofPred_eq, Set.mem_sdiff, hlive]
    constructor
    · rintro ⟨hd, hidle⟩
      have hne : ∀ r, g d = .ejected r → r ≠ e := by
        rintro r hr rfl
        simpa [s'] using hidle r hr
      refine ⟨⟨hd, fun r hr => ?_⟩, fun hmem => hne e hmem.2 rfl⟩
      simpa [s', hne r hr] using hidle r hr
    · rintro ⟨⟨hd, hidle⟩, hnot⟩
      refine ⟨hd, fun r hr => ?_⟩
      have hne : r ≠ e := fun heq => hnot ⟨hd, heq ▸ hr⟩
      simpa [s', hne] using hidle r hr
  have hphase : s'.phase g = Function.update (s.phase g) (.eject e)
      (.done (.ejected (s.claimed g e))) := by
    refine (phase_afterEject (fun _ => rfl) fun r _ => congrFun hclaimed r).trans ?_
    rw [congrFun hclaimed e]
    simp [EjectPc.phase]
  refine ⟨g, hg.back (fun d hd => (hlive d).mpr hd) (returned_afterEject (by simp [hpc]))
    (fun _ => id), fun h hrun => ?_⟩
  have hsub : s.claimed g e ⊆ (s.bag g).thunks := by
    rintro d ⟨hd, hgd⟩
    refine ⟨hd, fun r hr => ?_⟩
    rw [hgd] at hr
    cases hr
    exact hpc
  have hidle : s.phase g (.eject e) = .idle := by simp [phase, hpc, EjectPc.phase]
  rw [events_eject, if_pos hpc, hphase, hbag]
  exact hrun.call_effect hidle (.close hsub)

/-- The sweep goes on. -/
theorem explained_again {fs : List ι} (hpc : s.eject e = .sweep n fs) :
    s.Explained (.eject e) (s.afterEject e s.queue (.sweep 0 fs) []) := by
  intro g hg
  set s' := s.afterEject e s.queue (.sweep 0 fs) []
  have hlive : ∀ d, s'.Live g d ↔ s.Live g d := fun d =>
    live_congr (fun _ => Iff.rfl) rfl Iff.rfl
  have hidle : ∀ r, s'.eject r = .idle ↔ s.eject r = .idle :=
    idle_afterEject (by simp [hpc]) (by simp)
  have hclaimed : ∀ r, s'.claimed g r = s.claimed g r := claimed_congr hlive fun _ _ => rfl
  have hphase : s'.phase g = s.phase g := by
    refine (phase_afterEject (fun _ => rfl) fun r _ => hclaimed r).trans ?_
    rw [hclaimed e]
    refine Function.update_eq_self_iff.mpr ?_
    simp [phase, hpc, EjectPc.phase]
  refine ⟨g, hg.back (fun d hd => (hlive d).mpr hd) (returned_afterEject (by simp [hpc]))
    (fun _ => id), fun h hrun => ?_⟩
  rw [events_eject, if_neg (by simp [hpc]), hphase, bag_congr hlive (fun _ _ => rfl) hidle rfl]
  simpa [EjectPc.result] using hrun

/-- `stop_and_eject` returns what it has collected: nothing that it was to collect is left. -/
theorem explained_finish {fs : List ι} (hpc : s.eject e = .sweep n fs) :
    s.Explained (.eject e) (s.afterEject e s.queue (.returned fs) []) := by
  intro g hg
  set s' := s.afterEject e s.queue (.returned fs) []
  have hlive : ∀ d, s'.Live g d ↔ s.Live g d := fun d =>
    live_congr (fun _ => Iff.rfl) rfl Iff.rfl
  have hidle : ∀ r, s'.eject r = .idle ↔ s.eject r = .idle :=
    idle_afterEject (by simp [hpc]) (by simp)
  have hclaimed : ∀ r, s'.claimed g r = s.claimed g r := claimed_congr hlive fun _ _ => rfl
  have hnone : s.claimed g e = ∅ := by
    rw [← hclaimed]
    refine Set.eq_empty_of_forall_notMem fun d hd => ?_
    exact hg.unreturned d e fs hd.1 hd.2 (by simp [s'])
  have hphase : s'.phase g = Function.update (s.phase g) (.eject e) .returned :=
    phase_afterEject (fun _ => rfl) fun r _ => hclaimed r
  refine ⟨g, hg.back (fun d hd => (hlive d).mpr hd) (returned_afterEject (by simp [hpc]))
    (fun _ => id), fun h hrun => ?_⟩
  have hdone : s.phase g (.eject e) = .done (.ejected {c | c ∈ fs}) := by
    simp [phase, hpc, EjectPc.phase, hnone]
  rw [events_eject, if_neg (by simp [hpc]), hphase, bag_congr hlive (fun _ _ => rfl) hidle rfl]
  simpa [EjectPc.result] using hrun.ret hdone

/-- A sub-queue is collected: its thunks had left the bag before. -/
theorem explained_swap (hc : s.Conserved) {i : ℕ} {fs : List ι} (hpc : s.eject e = .sweep i fs) :
    s.Explained (.eject e) (s.afterEject e (s.queue.setQueue i [])
      (.sweep (i + 1) (fs ++ s.queue.queues i)) [.ejected i (s.queue.queues i)]) := by
  intro g' hg
  set s' := s.afterEject e (s.queue.setQueue i []) (.sweep (i + 1) (fs ++ s.queue.queues i))
    [.ejected i (s.queue.queues i)]
  have hqueue : s.queue.queues i = s.queue.queues i ++ [] := (List.append_nil _).symm
  let g := divert g' (s.queue.queues i) (.ejected e)
  have hlive : ∀ d, s'.Live g' d ↔ s.Live g d ∧ d ∉ s.queue.queues i :=
    live_of_left hc hqueue rfl rfl
  have hidle : ∀ r, s'.eject r = .idle ↔ s.eject r = .idle :=
    idle_afterEject (by simp [hpc]) (by simp)
  have hbag : s'.bag g' = s.bag g := by
    refine Bag.ext (Set.ext fun d => ?_) rfl
    simp only [bag, Set.mem_ofPred_eq, hlive, hidle]
    by_cases hd : d ∈ s.queue.queues i
    · simp [g, divert, hd, hpc]
    · simp [g, divert, hd]
  have hcollected : {c | c ∈ fs ++ s.queue.queues i} ∪ s'.claimed g' e =
      {c | c ∈ fs} ∪ s.claimed g e := by
    refine Set.ext fun d => ?_
    simp only [claimed, Set.mem_union, Set.mem_ofPred_eq, List.mem_append, hlive]
    by_cases hd : d ∈ s.queue.queues i
    · have hin : s.Live g d := Or.inr ⟨i, hd⟩
      simp [g, divert, hd, hin]
    · simp [g, divert, hd]
  have hphase : s'.phase g' = s.phase g := by
    refine (phase_afterEject (result_divert hc hg hqueue rfl (by simp)) fun r hr =>
      claimed_divert hlive (by simpa using hr.symm)).trans ?_
    refine Function.update_eq_self_iff.mpr ?_
    simp only [phase, hpc, EjectPc.phase]
    rw [hcollected]
  refine ⟨g, mayCome_divert hg hlive rfl (returned_afterEject (by simp [hpc])) (by simp)
    (fun r ts hr => ?_), fun h hrun => ?_⟩
  · cases hr
    simp [hpc]
  · rw [events_eject, if_neg (by simp [hpc]), hphase, hbag]
    simpa [EjectPc.result] using hrun

end Eject

/-! ### Every step, every run -/

theorem Signals.step (h : s.Signals) (hs : s.step a = some s') : s'.Signals := by
  intro e he
  cases step_spec hs with
  | pushCall | popCall => exact h e he
  | push _ hpush => cases hpush <;> exact h e he
  | pop _ hpop => cases hpop <;> exact h e he
  | ejectCall => rfl
  | @eject r _ _ _ _ hpc hej =>
    have hdone : s.queue.isDone = true := by
      refine h r fun hidle => ?_
      rw [hidle] at hpc
      cases hpc
      cases hej
    cases hej <;> exact hdone

theorem signals_of_reachable (h : (queueSystem ι n).Reachable s) : s.Signals := by
  refine h.invariant ?_ fun _ _ _ _ hI _ hs => hI.step hs
  rintro _ rfl e he
  exact absurd rfl he

theorem explained_of_step (hc : s.Conserved) (hsignals : s.Signals) (hs : s.step a = some s') :
    s.Explained a s' := by
  cases step_spec hs with
  | pushCall hpc => exact explained_pushCall hpc
  | @push c _ _ _ _ _ hpc hpush =>
    have hcarries := hc.carries c
    rw [hpc] at hcarries
    cases hpush with
    | accept hdone => exact explained_accept hc hsignals hpc hdone
    | store => exact explained_store hpc hcarries
    | throw => exact explained_throw hc hpc
    | refuse hdone =>
      refine explained_push rfl rfl (by simp [hpc, PushPc.Storing]) (by simp [hpc, PushPc.Stored])
        fun b φ h f hb hφ hrun => ?_
      rw [hpc] at hφ
      rw [events_push, if_neg (by simp [hpc])]
      simpa [PushPc.result, PushPc.phase] using hrun.effect hφ (.refuse (hb.trans hdone))
    | fetch | wrap | busy =>
      refine explained_push rfl rfl (by simp [hpc, PushPc.Storing]) (by simp [hpc, PushPc.Stored])
        fun b φ h f hb hφ hrun => ?_
      rw [hpc] at hφ
      rw [events_push, if_neg (by simp [hpc]), Function.update_eq_self_iff.mpr hφ.symm]
      simpa [PushPc.result] using hrun
    | @leave d =>
      refine explained_push rfl rfl (by simp [hpc, PushPc.Storing]) ?_
        fun b φ h f hb hφ hrun => ?_
      · cases d <;> simp [hpc, PushPc.Stored]
      · rw [hpc] at hφ
        rw [events_push, if_neg (by simp [hpc])]
        simpa [PushPc.result, PushPc.phase] using hrun.ret hφ
  | popCall hpc =>
    refine explained_pop rfl rfl fun b φ h hφ hrun => ?_
    rw [hpc] at hφ
    rw [events_pop, if_pos hpc]
    exact hrun.call hφ
  | @pop p _ _ _ _ _ hpc hpop =>
    cases hpop with
    | take _ _ hfront => exact explained_take hc hpc hfront
    | giveUp =>
      refine explained_pop rfl rfl fun b φ h hφ hrun => ?_
      rw [hpc] at hφ
      rw [events_pop, if_neg (by simp [hpc])]
      exact hrun.effect_ret hφ .giveUp
    | skip =>
      refine explained_pop rfl rfl fun b φ h hφ hrun => ?_
      rw [hpc] at hφ
      rw [events_pop, if_neg (by simp [hpc]), Function.update_eq_self_iff.mpr hφ.symm]
      simpa [PopPc.result] using hrun
  | ejectCall hpc => exact explained_ejectCall hpc
  | eject hpc hej =>
    cases hej with
    | again => exact explained_again hpc
    | finish => exact explained_finish hpc
    | swap => exact explained_swap hc hpc

/-- **The task-stealing queue is linearizable**, in whatever way the calls are interleaved, locks
fail and the allocations of `push` throw. Every call takes effect at one moment between its call and
its return: a `push` puts its thunk into the bag (or throws) if the bag is open and is refused if it
is closed, a `try_pop` takes one thunk of the bag or none, and a `stop_and_eject` closes the bag and
takes exactly the thunks that it is going to return. -/
theorem linearizable {q : QueueState ι n × List (CallEvent (QueueCall ι) (QueueResult ι))}
    (h : (queueHistories ι n).Reachable q) : (closableBag ι).Linearizable q.2 := by
  refine ⟨q.1.bag fun _ => .kept, q.1.phase fun _ => .kept, ?_⟩
  refine Object.run_of_guesses (fun _ _ => True) (fun g s => MayCome s g) (fun g s => bag s g)
    (fun g s => phase s g) ?_ ?_ h ⟨?_, ?_⟩
  · rintro _ g rfl
    have hdead : ∀ d, ¬ (initial : QueueState ι n).Live g d := by
      simp [Live, initial, PushPc.Storing, AtomicTaskStealingQueue.empty]
    refine ⟨Bag.ext (Set.ext fun d => ?_) rfl, funext fun i => ?_⟩
    · exact iff_of_false (fun hd => hdead d hd.1) id
    · cases i <;> rfl
  · intro s a s' g' hr _ hs hg'
    exact explained_of_step (conserved_of_reachable hr) (signals_of_reachable hr) hs g' hg'
  · intro d e fs _ hg
    cases hg
  · intro d _ hg
    cases hg

/-- A `stop_and_eject` begins after a `push` has read `is_done_`, sweeps before the thunk is stored,
and collects it in its second sweep. -/
def underWayRun : List (QueueAct ℕ) :=
  [.push 0 .free, .push 0 .free, .push 0 .free, .eject 9, .eject 9, .push 0 .free, .eject 9,
    .eject 9, .push 0 .free, .eject 9]

theorem linearizable_underWayRun :
    ∃ q : QueueState ℕ 1 × List (CallEvent (QueueCall ℕ) (QueueResult ℕ)),
      q.2 = [.called (.push 0), .called (.eject 9), .returned (.push 0) (.pushed true),
        .returned (.eject 9) (.ejected {c | c ∈ [0]})] ∧ (closableBag ℕ).Linearizable q.2 := by
  let S := queueHistories ℕ 1
  let q := (S.exec (.initial, []) underWayRun).get (by decide)
  have hinit : S.Init (.initial, []) := ⟨rfl, rfl⟩
  have hq : S.Reachable q := System.reachable_of_exec hinit (Option.some_get _).symm
  exact ⟨q, rfl, linearizable hq⟩

end QueueState

end Sgrpc
