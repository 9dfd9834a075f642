import Sgrpc.Interleaving.Placement
import Sgrpc.Queue.Concurrent

/-!
# Conservation of tasks

The thunks that have been stored form a linear family of tokens: each lies in one sub-queue, in
the hands of one `try_pop`, or in the result, possibly still partial, of one `stop_and_eject`.
A store puts a token that lies nowhere yet, since a `push` call stores at most once, and the two
ways out of a sub-queue move tokens from its front. The history of each sub-queue says the rest:
what has entered is what has left followed by what is there.
-/

namespace Sgrpc

open Interleaving
open AtomicTaskStealingQueue (PushStep PopStep EjectStep)

variable {ι : Type*} {n : ℕ}

/-! ### What a program counter says about its call -/

/-- The `push` has stored its thunk. -/
def PushPc.Stored : PushPc ι → Prop
  | .leaving false _ | .returned true _ => True
  | _ => False

instance : DecidablePred (PushPc.Stored (ι := ι)) := fun pc => by
  unfold PushPc.Stored
  split <;> infer_instance

/-- The argument of the call is the thunk `c`, unmoved until it is stored and moved from
afterwards. -/
def PushPc.Carries (c : ι) : PushPc ι → Prop
  | .idle => True
  | .counted f | .next f | .probe f _ _ | .threw f => f = c
  | .leaving true x | .returned false x => x = some c
  | .leaving false x | .returned true x => x = none

/-- The `push` has not begun, or is going to return `false`, if it has not yet read `is_done_`
provided that it reads `true`. -/
def PushPc.OnRefusal : PushPc ι → Prop
  | .idle | .counted _ | .leaving true _ | .returned false _ => True
  | _ => False

/-- The thunk a `try_pop` has taken. -/
def PopPc.taken : PopPc ι → List ι
  | .returned true x => x.toList
  | _ => []

/-- What a `stop_and_eject` has collected so far. -/
def EjectPc.thunks : EjectPc ι → List ι
  | .idle => []
  | .sweep _ fs | .returned fs => fs

/-! ### The places of the thunks -/

/-- Where a stored thunk can be. -/
inductive Place (ι : Type*) where
  | subQueue (j : ℕ)
  | takenBy (p : ι)
  | ejectedBy (e : ι)

namespace QueueState

/-- The thunks in each place. -/
def places (s : QueueState ι n) : Place ι → List ι
  | .subQueue j => s.queue.queues j
  | .takenBy p => (s.pop p).taken
  | .ejectedBy e => (s.eject e).thunks

/-- Nothing is lost, nothing is duplicated, and every sub-queue is first-in first-out. -/
structure Conserved [DecidableEq ι] (s : QueueState ι n) : Prop where
  linear : Linear s.places
  placed_iff : ∀ c, Placed s.places c ↔ (s.push c).Stored
  carries : ∀ c, (s.push c).Carries c
  count_stores : ∀ c, (stores s.trace).count c = if (s.push c).Stored then 1 else 0
  fifo : ∀ j, entered j s.trace = left j s.trace ++ s.queue.queues j

variable [DecidableEq ι] {s s' : QueueState ι n} {a : QueueAct ι}

theorem conserved_initial : (initial : QueueState ι n).Conserved where
  linear := .empty fun p => by cases p <;> rfl
  placed_iff c := by
    refine iff_of_false ?_ (by simp [initial, PushPc.Stored])
    rintro ⟨p | p | p, hp⟩ <;> simp [initial, places, AtomicTaskStealingQueue.empty,
      PopPc.taken, EjectPc.thunks] at hp
  carries c := trivial
  count_stores c := by simp [initial, stores, PushPc.Stored]
  fifo j := by simp [initial, entered, left, AtomicTaskStealingQueue.empty]

/-! ### Steps that move no thunk -/

/-- Steps that leave the places and the history of the sub-queues alone, and every `push` on
the same side of its store, keep the invariant. -/
theorem Conserved.silent (h : s.Conserved) (hplaces : s'.places = s.places)
    (hqueues : s'.queue.queues = s.queue.queues)
    (hstored : ∀ c, (s'.push c).Stored ↔ (s.push c).Stored)
    (hcarries : ∀ c, (s'.push c).Carries c) {ev : List (QueueEvent ι)}
    (htrace : s'.trace = s.trace ++ ev) (hev : Silent ev) : s'.Conserved where
  linear := hplaces ▸ h.linear
  placed_iff c := by rw [hplaces, h.placed_iff, hstored]
  carries := hcarries
  count_stores c := by
    rw [htrace, stores_append, hev.1, List.append_nil, h.count_stores]
    simp only [hstored]
  fifo j := by
    rw [htrace, entered_append, left_append, (hev.2 j).1, (hev.2 j).2, hqueues]
    simpa using h.fifo j

/-- A step of `push` on the same side of its store keeps the invariant. -/
theorem Conserved.push_silent (h : s.Conserved) {c : ι} {q : AtomicTaskStealingQueue ι n}
    {pc : PushPc ι} {ev : List (QueueEvent ι)} (hq : q.queues = s.queue.queues)
    (hstored : pc.Stored ↔ (s.push c).Stored) (hcarries : pc.Carries c) (hev : Silent ev) :
    (s.afterPush c q pc ev).Conserved := by
  refine h.silent ?_ hq (fun d => ?_) (fun d => ?_) rfl hev
  · funext p
    cases p <;> simp [places, hq]
  · rcases eq_or_ne d c with rfl | hd
    · simpa using hstored
    · simp [hd]
  · rcases eq_or_ne d c with rfl | hd
    · simpa using hcarries
    · simpa [hd] using h.carries d

/-- A step of `try_pop` that takes nothing keeps the invariant. -/
theorem Conserved.pop_silent (h : s.Conserved) {p : ι} {q : AtomicTaskStealingQueue ι n}
    {pc : PopPc ι} (hq : q.queues = s.queue.queues) (htaken : pc.taken = (s.pop p).taken) :
    (s.afterPop p q pc []).Conserved := by
  refine h.silent ?_ hq (fun d => Iff.rfl) h.carries rfl silent_nil
  funext r
  cases r with
  | subQueue j => simp [places, hq]
  | takenBy r =>
    rcases eq_or_ne r p with rfl | hr
    · simpa [places] using htaken
    · simp [places, hr]
  | ejectedBy e => rfl

/-- A step of `stop_and_eject` that collects nothing keeps the invariant. -/
theorem Conserved.eject_silent (h : s.Conserved) {e : ι} {q : AtomicTaskStealingQueue ι n}
    {pc : EjectPc ι} (hq : q.queues = s.queue.queues)
    (hthunks : pc.thunks = (s.eject e).thunks) : (s.afterEject e q pc []).Conserved := by
  refine h.silent ?_ hq (fun d => Iff.rfl) h.carries rfl silent_nil
  funext r
  cases r with
  | subQueue j => simp [places, hq]
  | takenBy r => rfl
  | ejectedBy r =>
    rcases eq_or_ne r e with rfl | hr
    · simpa [places] using hthunks
    · simp [places, hr]

/-! ### Steps that move thunks -/

/-- `try_push` stores the thunk of its call: a token that lay nowhere. -/
theorem Conserved.store (h : s.Conserved) {c : ι} {f : ι} {o i j : ℕ}
    (hpc : s.push c = .probe f o i) :
    (s.afterPush c (s.queue.setQueue j (s.queue.queues j ++ [f])) (.leaving false none)
      [.stored j f]).Conserved := by
  obtain rfl : f = c := by simpa [hpc, PushPc.Carries] using h.carries c
  have hnot : ¬ (s.push f).Stored := by simp [hpc, PushPc.Stored]
  have hfresh : ¬ Placed s.places f := fun hp => hnot ((h.placed_iff f).mp hp)
  have hins : Inserted s.places
      (s.afterPush f (s.queue.setQueue j (s.queue.queues j ++ [f])) (.leaving false none)
        [.stored j f]).places (.subQueue j) f := by
    refine ⟨by simp [places], fun r hr => ?_⟩
    cases r with
    | subQueue k =>
      have hk : k ≠ j := fun hk => hr (by rw [hk])
      simp [places, hk]
    | takenBy p | ejectedBy e => rfl
  refine ⟨h.linear.insert hins hfresh, fun d => ?_, fun d => ?_, fun d => ?_, fun k => ?_⟩
  · rw [hins.placed_iff, h.placed_iff]
    rcases eq_or_ne d f with rfl | hd
    · simp [PushPc.Stored]
    · simp [hd]
  · rcases eq_or_ne d f with rfl | hd
    · simp [PushPc.Carries]
    · simpa [hd] using h.carries d
  · have hcount := h.count_stores d
    rcases eq_or_ne d f with rfl | hd
    · rw [if_neg hnot] at hcount
      simp [hcount, PushPc.Stored]
    · simp [hd, hd.symm, hcount]
  · have hf := h.fifo k
    rcases eq_or_ne k j with rfl | hk
    · simp [hf]
    · simp [hk, hk.symm, hf]

/-- `try_pop` takes the front of a sub-queue. -/
theorem Conserved.take (h : s.Conserved) {p f : ι} {x : Option ι} {o i j : ℕ} {rest : List ι}
    (hpc : s.pop p = .probe x o i) (hfront : s.queue.queues j = f :: rest) :
    (s.afterPop p (s.queue.setQueue j rest) (.returned true (some f))
      [.popped j f]).Conserved := by
  have hm : Moved s.places
      (s.afterPop p (s.queue.setQueue j rest) (.returned true (some f)) [.popped j f]).places
      (.subQueue j) (.takenBy p) [f] := by
    refine ⟨by simp [places, hfront], by simp [places, hpc, PopPc.taken], fun r hr hr' => ?_⟩
    cases r with
    | subQueue k =>
      have hk : k ≠ j := fun hk => hr (by rw [hk])
      simp [places, hk]
    | takenBy r =>
      have hrp : r ≠ p := fun hrp => hr' (by rw [hrp])
      simp [places, hrp]
    | ejectedBy e => rfl
  refine ⟨h.linear.move hm (by simp), fun d => ?_, h.carries, fun d => ?_, fun k => ?_⟩
  · rw [hm.placed_iff (by simp)]
    exact h.placed_iff d
  · rw [trace_afterPop, stores_append, stores_popped, List.append_nil]
    exact h.count_stores d
  · have hf := h.fifo k
    rcases eq_or_ne k j with rfl | hk
    · simpa [hfront] using hf
    · simpa [hk, hk.symm] using hf

/-- `eject` takes a whole sub-queue, in its order. -/
theorem Conserved.swap (h : s.Conserved) {e : ι} {i : ℕ} {acc : List ι}
    (hpc : s.eject e = .sweep i acc) :
    (s.afterEject e (s.queue.setQueue i []) (.sweep (i + 1) (acc ++ s.queue.queues i))
      [.ejected i (s.queue.queues i)]).Conserved := by
  have hm : Moved s.places
      (s.afterEject e (s.queue.setQueue i []) (.sweep (i + 1) (acc ++ s.queue.queues i))
        [.ejected i (s.queue.queues i)]).places
      (.subQueue i) (.ejectedBy e) (s.queue.queues i) := by
    refine ⟨by simp [places], by simp [places, hpc, EjectPc.thunks], fun r hr hr' => ?_⟩
    cases r with
    | subQueue k =>
      have hk : k ≠ i := fun hk => hr (by rw [hk])
      simp [places, hk]
    | takenBy p => rfl
    | ejectedBy r =>
      have hre : r ≠ e := fun hre => hr' (by rw [hre])
      simp [places, hre]
  refine ⟨h.linear.move hm (by simp), fun d => ?_, h.carries, fun d => ?_, fun k => ?_⟩
  · rw [hm.placed_iff (by simp)]
    exact h.placed_iff d
  · rw [trace_afterEject, stores_append, stores_ejected, List.append_nil]
    exact h.count_stores d
  · have hf := h.fifo k
    rcases eq_or_ne k i with rfl | hk
    · simpa using hf
    · simpa [hk, hk.symm] using hf

/-! ### Every step, every run -/

theorem Conserved.step (h : s.Conserved) (hs : s.step a = some s') : s'.Conserved := by
  cases step_spec hs with
  | pushCall hpc =>
    exact h.push_silent rfl (by simp [hpc, PushPc.Stored]) rfl silent_nil
  | @push c _ _ _ _ _ hpc hpush =>
    have hcarries := h.carries c
    rw [hpc] at hcarries
    cases hpush with
    | refuse =>
      exact h.push_silent rfl (by simp [hpc, PushPc.Stored]) (congrArg some hcarries)
        (silent_tested _ _)
    | accept =>
      exact h.push_silent rfl (by simp [hpc, PushPc.Stored]) hcarries (silent_tested _ _)
    | fetch | wrap | busy | throw =>
      exact h.push_silent rfl (by simp [hpc, PushPc.Stored]) hcarries silent_nil
    | store hi hj => exact h.store hpc
    | @leave d f =>
      refine h.push_silent rfl ?_ ?_ silent_nil
      · cases d <;> simp [hpc, PushPc.Stored]
      · cases d <;> exact hcarries
  | popCall hpc => exact h.pop_silent rfl (by simp [hpc, PopPc.taken])
  | pop hpc hpop =>
    cases hpop with
    | giveUp | skip => exact h.pop_silent rfl (by simp [hpc, PopPc.taken])
    | take hi hj hfront => exact h.take hpc hfront
  | ejectCall hpc => exact h.eject_silent rfl (by simp [hpc, EjectPc.thunks])
  | eject hpc hej =>
    cases hej with
    | again | finish => exact h.eject_silent rfl (by simp [hpc, EjectPc.thunks])
    | swap hi => exact h.swap hpc

/-- **Conservation** holds in every reachable state. -/
theorem conserved_of_reachable (h : (queueSystem ι n).Reachable s) : s.Conserved :=
  h.invariant (by rintro _ rfl; exact conserved_initial) fun _ _ _ _ hI _ hs => hI.step hs

/-! ### Refusals -/

/-- `is_done_` is never reset. -/
theorem isDone_of_step (hs : s.step a = some s') (hd : s.queue.isDone = true) :
    s'.queue.isDone = true := by
  cases step_spec hs with
  | pushCall | popCall => exact hd
  | ejectCall => rfl
  | push _ hpush => cases hpush <;> exact hd
  | pop _ hpop => cases hpop <;> exact hd
  | eject _ hej => cases hej <;> exact hd

/-- A `push` that has not begun when `is_done_` is set is on the way to being refused ever
after. -/
def Refuses (s : QueueState ι n) (c : ι) : Prop :=
  s.queue.isDone = true ∧ (s.push c).OnRefusal

theorem Refuses.step {c : ι} (h : s.Refuses c) (hs : s.step a = some s') : s'.Refuses c := by
  refine ⟨isDone_of_step hs h.1, ?_⟩
  cases step_spec hs with
  | @pushCall d _ hpc =>
    rcases eq_or_ne c d with rfl | hd
    · simp [PushPc.OnRefusal]
    · simpa [hd] using h.2
  | @push d _ pc _ pc' _ hpc hpush =>
    rcases eq_or_ne c d with rfl | hd
    · have hpre := h.2
      rw [hpc] at hpre
      cases hpush with
      | accept hdone => exact absurd h.1 (by simp [hdone])
      | refuse => simp [PushPc.OnRefusal]
      | @leave d _ => cases d <;> simp_all [PushPc.OnRefusal]
      | fetch | wrap | busy | store | throw => exact absurd hpre (by simp [PushPc.OnRefusal])
    · simpa [hd] using h.2
  | popCall | pop | ejectCall | eject => exact h.2

/-- **Conservation of tasks.** In every reachable state: a thunk that has been stored is in
exactly one place, once; a `push` that returned `true` has moved its argument and stored it
exactly once; one that returned `false` has neither moved nor stored it; a `push` that begins
after `is_done_` was set can only return `false`; and what has left a sub-queue is, in order,
the beginning of what has entered it. -/
theorem tasks_conserved (h : (queueSystem ι n).Reachable s) :
    (∀ c ∈ stores s.trace,
      ∃ p, (s.places p).count c = 1 ∧ ∀ p', p' ≠ p → (s.places p').count c = 0) ∧
    (∀ c x, s.push c = .returned true x → x = none ∧ (stores s.trace).count c = 1) ∧
    (∀ c x, s.push c = .returned false x →
      x = some c ∧ (stores s.trace).count c = 0 ∧ ∀ p, (s.places p).count c = 0) ∧
    (∀ c, s.queue.isDone = true → s.push c = .idle →
      ∀ t, (queueSystem ι n).Leads (fun _ _ => True) s t →
        ∀ b x, t.push c = .returned b x → b = false) ∧
    ∀ j, entered j s.trace = left j s.trace ++ s.queue.queues j := by
  have hc := conserved_of_reachable h
  refine ⟨fun c hmem => ?_, fun c x hpc => ?_, fun c x hpc => ?_, 
    fun c hdone hidle t hl b x hpc => ?_, hc.fifo⟩
  · have hstored : (s.push c).Stored := by
      by_contra hnot
      have hcount := hc.count_stores c
      rw [if_neg hnot] at hcount
      exact List.count_eq_zero.mp hcount hmem
    exact hc.linear.exists_unique_place ((hc.placed_iff c).mpr hstored)
  · have hcarries := hc.carries c
    have hcount := hc.count_stores c
    rw [hpc] at hcarries hcount
    exact ⟨hcarries, by simpa [PushPc.Stored] using hcount⟩
  · have hcarries := hc.carries c
    have hcount := hc.count_stores c
    have hplaced := hc.placed_iff c
    rw [hpc] at hcarries hcount hplaced
    refine ⟨hcarries, by simpa [PushPc.Stored] using hcount, fun p => ?_⟩
    refine List.count_eq_zero.mpr fun hp => ?_
    simpa [PushPc.Stored] using hplaced.mp ⟨p, hp⟩
  · have href : t.Refuses c :=
      hl.invariant (I := fun u => u.Refuses c) ⟨hdone, by simp [hidle, PushPc.OnRefusal]⟩
        fun _ _ _ hI _ hs => hI.step hs
    have hpre := href.2
    rw [hpc] at hpre
    cases b with
    | false => rfl
    | true => simp [PushPc.OnRefusal] at hpre

/-- Two pushes, the second one behind a taken lock, and a `try_pop` that takes the first thunk. -/
def pushPopRun : List (QueueAct ℕ) :=
  [.push 0 .free, .push 0 .free, .push 0 .free, .push 0 .free, .push 0 .free,
    .push 1 .free, .push 1 .free, .push 1 .free, .push 1 .busy, .push 1 .free, .push 1 .free,
    .pop 2 true, .pop 2 true]

theorem tasks_conserved_pushPopRun : ∃ s : QueueState ℕ 2,
    (queueSystem ℕ 2).Reachable s ∧ stores s.trace = [0, 1] ∧
      ∃ p, (s.places p).count 0 = 1 ∧ ∀ p', p' ≠ p → (s.places p').count 0 = 0 := by
  let s := ((queueSystem ℕ 2).exec .initial pushPopRun).get (by decide)
  have hs : (queueSystem ℕ 2).Reachable s :=
    System.reachable_of_exec rfl (Option.some_get _).symm
  have hstores : stores s.trace = [0, 1] := by decide
  exact ⟨s, hs, hstores, (tasks_conserved hs).1 0 (by simp [hstores])⟩

end QueueState

end Sgrpc
