import Mathlib.Data.Fintype.Basic
import Sgrpc.Interleaving.Counting
import Sgrpc.Queue.Conservation

/-!
# Draining at shutdown

`stop_and_eject` sweeps the sub-queues and reads `in_push_` only after the sweep. A `push` that
read `is_done_ == false` early enough can store its thunk in a sub-queue that the sweep has
already passed and decrement `in_push_` before the sweep ends: then the call leaves its loop, and
the thunk, although accepted, stays behind (`exists_task_lost`).

That is the only way to lose one, as long as `in_push_` does not wrap. A sweep that is still to
come to the sub-queue of a thunk collects it, and one that has passed it comes back if the `push`
is still counted when the sweep reads `in_push_`. So if every `push` is counted until no running
sweep has its thunk behind it (`CountedLong`), every accepted thunk has been handed out when all
calls are over (`tasks_handed_out`).
-/

namespace Sgrpc

open Interleaving
open AtomicTaskStealingQueue (PushStep PopStep EjectStep unbump)

variable {ι : Type*} {n : ℕ}

/-! ### Calls in progress -/

/-- The call has incremented `in_push_` and not decremented it. -/
def PushPc.Counted : PushPc ι → Prop
  | .idle | .returned _ _ => False
  | _ => True

/-- The call has read `is_done_ == false` and may still store its thunk. -/
def PushPc.Storing : PushPc ι → Prop
  | .next _ | .probe _ _ _ => True
  | _ => False

/-- Not called, or over. -/
def PushPc.Over : PushPc ι → Prop
  | .idle | .returned _ _ | .threw _ => True
  | _ => False

/-- Not called, or over. -/
def PopPc.Over : PopPc ι → Prop
  | .probe _ _ _ => False
  | _ => True

/-- The call is in progress. -/
def EjectPc.Sweeping : EjectPc ι → Prop
  | .sweep _ _ => True
  | _ => False

/-- The call has finished its sweep of `n` sub-queues and reads `in_push_` next. -/
def EjectPc.AtTest (n : ℕ) : EjectPc ι → Prop
  | .sweep i _ => i = n
  | _ => False

instance : DecidablePred (PushPc.Over (ι := ι))
  | .idle | .returned _ _ | .threw _ => isTrue trivial
  | .counted _ | .next _ | .probe _ _ _ | .leaving _ _ => isFalse id

instance : DecidablePred (PopPc.Over (ι := ι)) := fun pc => by
  unfold PopPc.Over
  split <;> infer_instance

instance : DecidablePred (EjectPc.Sweeping (ι := ι)) := fun pc => by
  unfold EjectPc.Sweeping
  split <;> infer_instance

instance : DecidablePred (EjectPc.AtTest (ι := ι) n) := fun pc => by
  unfold EjectPc.AtTest
  split <;> infer_instance

theorem PushPc.Storing.counted {pc : PushPc ι} (h : pc.Storing) : pc.Counted := by
  cases pc <;> simp_all [PushPc.Storing, PushPc.Counted]

namespace QueueState

/-- At least one `stop_and_eject` has been called, all of them have returned, and no `push` or
`try_pop` is in progress. -/
def Quiescent (s : QueueState ι n) : Prop :=
  (∃ e, s.eject e ≠ .idle) ∧ (∀ e, ¬ (s.eject e).Sweeping) ∧ (∀ c, (s.push c).Over) ∧
    ∀ p, (s.pop p).Over

instance [DecidableEq ι] [Fintype ι] : DecidablePred (Quiescent (ι := ι) (n := n)) := fun s => by
  unfold Quiescent
  infer_instance

/-- A running `stop_and_eject` has not come to sub-queue `j` in its present sweep. -/
def Ahead (s : QueueState ι n) (j : ℕ) : Prop := ∃ e i acc, s.eject e = .sweep i acc ∧ i ≤ j

/-- `in_push_` does not wrap when a `push` increments it, and no `push` decrements it while its
thunk is in a sub-queue that all running sweeps have passed. -/
def CountedLong (s : QueueState ι n) : QueueAct ι → Prop
  | .push c _ => (s.push c = .idle → s.queue.inPush + 1 < unsignedSize) ∧
      ((∃ x, s.push c = .leaving false x) → (∃ e, (s.eject e).Sweeping) →
        ∀ j, c ∈ s.queue.queues j → s.Ahead j)
  | _ => True

/-- While a `stop_and_eject` is running, the thunks in the sub-queues are ahead of it, or their
`push` is still counted. When none is running any more, the sub-queues are empty, and no `push`
will store into them. -/
structure Drained (s : QueueState ι n) : Prop where
  signalled : (∃ e, s.eject e ≠ .idle) → s.queue.isDone = true
  within : ∀ j, ∀ c ∈ s.queue.queues j, j < n
  covered : (∃ e, (s.eject e).Sweeping) →
    ∀ j, ∀ c ∈ s.queue.queues j, s.Ahead j ∨ ∃ x, s.push c = .leaving false x
  ended : s.queue.isDone = true → (∀ e, ¬ (s.eject e).Sweeping) →
    (∀ j, s.queue.queues j = []) ∧ ∀ c, ¬ (s.push c).Storing

theorem drained_initial : (initial : QueueState ι n).Drained where
  signalled h := absurd rfl h.choose_spec
  within _ _ hc := absurd hc List.not_mem_nil
  covered h := h.choose_spec.elim
  ended h := absurd h (by simp [initial, AtomicTaskStealingQueue.empty])

theorem Drained.isDone_of_sweeping {s : QueueState ι n} (h : s.Drained) {e : ι}
    (he : (s.eject e).Sweeping) : s.queue.isDone = true :=
  h.signalled ⟨e, fun hidle => by rw [hidle] at he; exact he⟩

variable [DecidableEq ι] {s s' : QueueState ι n} {a : QueueAct ι}

/-! ### The counter -/

/-- `in_push_` counts the `push` calls in progress, those that `std::bad_alloc` has left
included. -/
structure InPushCounts (s : QueueState ι n) : Prop where
  counts : Counts s.queue.inPush fun c => (s.push c).Counted
  lt : s.queue.inPush < unsignedSize

theorem InPushCounts.push (h : s.InPushCounts) {c : ι} {q : AtomicTaskStealingQueue ι n}
    {pc : PushPc ι} {ev : List (QueueEvent ι)} (hq : q.inPush = s.queue.inPush)
    (hpc : pc.Counted ↔ (s.push c).Counted) : (s.afterPush c q pc ev).InPushCounts where
  counts := by simpa [hq] using Counts.update h.counts hpc
  lt := hq.trans_lt h.lt

theorem InPushCounts.step (h : s.InPushCounts) (ha : s.CountedLong a)
    (hs : s.step a = some s') : s'.InPushCounts := by
  cases step_spec hs with
  | @pushCall c _ hpc =>
    have hlt := ha.1 hpc
    have hbump : (s.queue.pushCall c).1.inPush = s.queue.inPush + 1 := Nat.mod_eq_of_lt hlt
    refine ⟨?_, by rw [queue_afterPush, hbump]; exact hlt⟩
    rw [queue_afterPush, hbump]
    exact Counts.update_enter h.counts (by simp [hpc, PushPc.Counted]) trivial
  | @push c _ _ _ _ _ hpc hpush =>
    cases hpush with
    | refuse | accept | fetch | wrap | busy | store | throw =>
      exact h.push rfl (by simp [hpc, PushPc.Counted])
    | leave =>
      have hin : (s.push c).Counted := by simp [hpc, PushPc.Counted]
      have hpos := h.counts.pos hin
      have heq : unbump s.queue.inPush = s.queue.inPush - 1 := if_neg hpos.ne'
      refine ⟨?_, ?_⟩
      · show Counts (unbump s.queue.inPush) _
        rw [heq]
        exact Counts.update_leave h.counts hin (by simp [PushPc.Counted])
      · show unbump s.queue.inPush < unsignedSize
        rw [heq]
        exact (Nat.sub_le ..).trans_lt h.lt
  | popCall | ejectCall => exact ⟨h.counts, h.lt⟩
  | pop _ hpop => cases hpop <;> exact ⟨h.counts, h.lt⟩
  | eject _ hej => cases hej <;> exact ⟨h.counts, h.lt⟩

/-! ### The drain -/

/-- A step of `push` that stores nothing, and from which nobody starts to store once `is_done_` is
set, keeps the invariant if a `push` that is no longer counted has its thunk ahead of a sweep. -/
theorem Drained.push (h : s.Drained) {c : ι} {q : AtomicTaskStealingQueue ι n} {pc : PushPc ι}
    {ev : List (QueueEvent ι)} (hdone : q.isDone = s.queue.isDone)
    (hqueues : q.queues = s.queue.queues)
    (hpc : s.queue.isDone = true → pc.Storing → (s.push c).Storing)
    (hleave : (∃ x, s.push c = .leaving false x) → (∃ e, (s.eject e).Sweeping) →
      ∀ j, c ∈ s.queue.queues j → s.Ahead j) : (s.afterPush c q pc ev).Drained where
  signalled he := hdone.trans (h.signalled he)
  within := by
    rw [queue_afterPush, hqueues]
    exact h.within
  covered hsweep j d hd := by
    rw [queue_afterPush, hqueues] at hd
    rcases h.covered hsweep j d hd with hahead | hleaving
    · exact Or.inl hahead
    · rcases eq_or_ne d c with rfl | hne
      · exact Or.inl (hleave hleaving hsweep j hd)
      · exact Or.inr (by simpa [hne] using hleaving)
  ended hd hnone := by
    have hd' : s.queue.isDone = true := hdone.symm.trans hd
    obtain ⟨hempty, hstoring⟩ := h.ended hd' hnone
    refine ⟨by rwa [queue_afterPush, hqueues], fun d => ?_⟩
    rcases eq_or_ne d c with rfl | hd
    · simpa using fun hst => hstoring d (hpc hd' hst)
    · simpa [hd] using hstoring d

/-- The thunk of a `push` is stored: the call is counted. -/
theorem Drained.store (h : s.Drained) {c : ι} {o i j : ℕ} (hpc : s.push c = .probe c o i)
    (hj : j < n) {ev : List (QueueEvent ι)} :
    (s.afterPush c (s.queue.setQueue j (s.queue.queues j ++ [c])) (.leaving false none)
      ev).Drained where
  signalled := h.signalled
  within k d hd := by
    rcases eq_or_ne k j with rfl | hne
    · exact hj
    · exact h.within k d (by simpa [hne] using hd)
  covered hsweep k d hd := by
    rcases eq_or_ne d c with rfl | hne
    · exact Or.inr ⟨none, by simp⟩
    · have hold : d ∈ s.queue.queues k := by
        rcases eq_or_ne k j with rfl | hk
        · simpa [hne] using hd
        · simpa [hk] using hd
      exact (h.covered hsweep k d hold).imp id fun hleaving => by simpa [hne] using hleaving
  ended hd hnone := absurd (by simp [hpc, PushPc.Storing]) ((h.ended hd hnone).2 c)

/-- A step of `try_pop` keeps the invariant. -/
theorem Drained.pop (h : s.Drained) {p : ι} {q : AtomicTaskStealingQueue ι n} {pc pc' : PopPc ι}
    {ev : List (QueueEvent ι)} (hpop : PopStep s.queue pc q pc' ev) :
    (s.afterPop p q pc' ev).Drained := by
  cases hpop with
  | giveUp | skip => exact ⟨h.signalled, h.within, h.covered, h.ended⟩
  | @take _ _ _ j f rest _ _ hfront =>
    have hsub : ∀ k, ∀ c ∈ (s.queue.setQueue j rest).queues k, c ∈ s.queue.queues k := by
      intro k c hc
      rcases eq_or_ne k j with rfl | hne
      · rw [hfront]
        exact List.mem_cons_of_mem f (by simpa using hc)
      · simpa [hne] using hc
    refine ⟨h.signalled, fun k c hc => h.within k c (hsub k c hc),
      fun hsweep k c hc => h.covered hsweep k c (hsub k c hc), fun hd hnone => ?_⟩
    exact absurd hfront (by simp [(h.ended hd hnone).1 j])

/-- `stop_and_eject` begins a sweep: everything is ahead of it. -/
theorem Drained.restart (h : s.Drained) {e : ι} {q : AtomicTaskStealingQueue ι n}
    (hdone : q.isDone = true) (hqueues : q.queues = s.queue.queues) {acc : List ι}
    {ev : List (QueueEvent ι)} : (s.afterEject e q (.sweep 0 acc) ev).Drained where
  signalled _ := hdone
  within := by
    rw [queue_afterEject, hqueues]
    exact h.within
  covered _ j c _ := Or.inl ⟨e, 0, acc, by simp, Nat.zero_le j⟩
  ended _ hnone := absurd (by simp [EjectPc.Sweeping]) (hnone e)

/-- The sweep collects the thunks of sub-queue `i`. -/
theorem Drained.swap (h : s.Drained) {e : ι} {i : ℕ} {acc : List ι}
    (hpc : s.eject e = .sweep i acc) {ev : List (QueueEvent ι)} :
    (s.afterEject e (s.queue.setQueue i []) (.sweep (i + 1) (acc ++ s.queue.queues i))
      ev).Drained := by
  have hsweep : (s.eject e).Sweeping := by simp [hpc, EjectPc.Sweeping]
  have hold : ∀ j, ∀ c ∈ (s.queue.setQueue i []).queues j, j ≠ i ∧ c ∈ s.queue.queues j := by
    intro j c hc
    rcases eq_or_ne j i with rfl | hne
    · simp at hc
    · exact ⟨hne, by simpa [hne] using hc⟩
  refine ⟨fun _ => h.isDone_of_sweeping hsweep, fun j c hc => h.within j c (hold j c hc).2,
    fun _ j c hc => ?_, fun _ hnone => absurd (by simp [EjectPc.Sweeping]) (hnone e)⟩
  obtain ⟨hne, hc⟩ := hold j c hc
  refine (h.covered ⟨e, hsweep⟩ j c hc).imp ?_ id
  rintro ⟨e', i', acc', he', hle⟩
  rcases eq_or_ne e' e with rfl | hother
  · -- the sweep has come to `i`, and `j` is another sub-queue
    obtain ⟨rfl, rfl⟩ : i = i' ∧ acc = acc' := by simpa [hpc] using he'
    exact ⟨e', i + 1, acc ++ s.queue.queues i, by simp, by omega⟩
  · exact ⟨e', i', acc', by simpa [hother] using he', hle⟩

/-- A `stop_and_eject` leaves its loop: no `push` is counted, and it has passed all sub-queues. -/
theorem Drained.finish (h : s.Drained) (hcount : s.InPushCounts) {e : ι} {acc : List ι}
    (hpc : s.eject e = .sweep n acc) (hzero : s.queue.inPush = 0) {ev : List (QueueEvent ι)} :
    (s.afterEject e s.queue (.returned acc) ev).Drained := by
  have hsweep : (s.eject e).Sweeping := by simp [hpc, EjectPc.Sweeping]
  have hnone : ∀ c, ¬ (s.push c).Counted := fun c =>
    Counts.not_of_zero (p := fun c => (s.push c).Counted) (hzero ▸ hcount.counts) c
  -- what is left is ahead of another sweep
  have hother : ∀ j, ∀ c ∈ s.queue.queues j,
      ∃ e' ≠ e, ∃ i acc, s.eject e' = .sweep i acc ∧ i ≤ j := by
    intro j c hc
    rcases h.covered ⟨e, hsweep⟩ j c hc with ⟨e', i, acc', he', hle⟩ | ⟨x, hleaving⟩
    · refine ⟨e', ?_, i, acc', he', hle⟩
      rintro rfl
      obtain ⟨rfl, -⟩ : n = i ∧ acc = acc' := by simpa [hpc] using he'
      exact absurd (h.within j c hc) (Nat.not_lt.mpr hle)
    · exact absurd (by simp [hleaving, PushPc.Counted]) (hnone c)
  refine ⟨fun _ => h.isDone_of_sweeping hsweep, h.within, fun _ j c hc => ?_, fun _ hover => ?_⟩
  · obtain ⟨e', hne, i, acc', he', hle⟩ := hother j c hc
    exact Or.inl ⟨e', i, acc', by simpa [hne] using he', hle⟩
  · refine ⟨fun j => List.eq_nil_iff_forall_not_mem.mpr fun c hc => ?_,
      fun c hst => hnone c hst.counted⟩
    obtain ⟨e', hne, i, acc', he', -⟩ := hother j c hc
    exact hover e' (by simp [hne, he', EjectPc.Sweeping])

theorem Drained.step (h : s.Drained) (hn : 0 < n) (hconserved : s.Conserved)
    (hcount : s.InPushCounts) (ha : s.CountedLong a) (hs : s.step a = some s') : s'.Drained := by
  cases step_spec hs with
  | @pushCall c _ hpc => exact h.push rfl rfl (by simp [PushPc.Storing]) (by simp [hpc])
  | @push c _ _ _ _ _ hpc hpush =>
    have hcarries := hpc ▸ hconserved.carries c
    cases hpush with
    | accept hdone => exact h.push rfl rfl (by simp [hdone]) (by simp [hpc])
    | refuse | throw => exact h.push rfl rfl (by simp [PushPc.Storing]) (by simp [hpc])
    | fetch | wrap | busy =>
      exact h.push rfl rfl (by simp [hpc, PushPc.Storing]) (by simp [hpc])
    | store hi hj =>
      obtain rfl := hcarries
      exact h.store hpc (hj ▸ Nat.mod_lt _ hn)
    | leave => exact h.push rfl rfl (by simp [PushPc.Storing]) ha.2
  | popCall => exact ⟨h.signalled, h.within, h.covered, h.ended⟩
  | pop _ hpop => exact h.pop hpop
  | @ejectCall e => exact h.restart (q := s.queue.ejectCall.1) rfl rfl
  | @eject e _ _ _ _ hpc hej =>
    cases hej with
    | again =>
      exact h.restart (h.isDone_of_sweeping (e := e) (by simp [hpc, EjectPc.Sweeping])) rfl
    | swap => exact h.swap hpc
    | finish hzero => exact h.finish hcount hpc hzero

/-- **Nothing is left behind** in a run in which `in_push_` does not wrap and no `push` decrements
it while its thunk is behind the running sweeps: once all calls are over, the sub-queues are empty,
and every accepted thunk has been handed out by exactly one `try_pop` or is in the result of exactly
one `stop_and_eject`. -/
theorem tasks_handed_out (hn : 0 < n) (h : (queueSystem ι n).ReachableUnder CountedLong s)
    (hq : s.Quiescent) :
    (∀ j, s.queue.queues j = []) ∧
      ∀ c x, s.push c = .returned true x →
        ∃ p, ((∃ t, p = .takenBy t) ∨ ∃ e, p = .ejectedBy e) ∧ (s.places p).count c = 1 ∧
          ∀ p', p' ≠ p → (s.places p').count c = 0 := by
  have hinv : s.Drained ∧ s.InPushCounts := by
    refine h.invariant (I := fun u => u.Drained ∧ u.InPushCounts) ?_ fun u _ _ hr hI hP hs =>
      ⟨hI.1.step hn (conserved_of_reachable hr.reachable) hI.2 hP hs, hI.2.step hP hs⟩
    rintro _ rfl
    exact ⟨drained_initial, .zero_of_forall_not fun c hc => hc, Nat.two_pow_pos 32⟩
  obtain ⟨hcalled, hover, -, -⟩ := hq
  have hempty := (hinv.1.ended (hinv.1.signalled hcalled) hover).1
  refine ⟨hempty, fun c x hpc => ?_⟩
  have hc := conserved_of_reachable h.reachable
  have hplaced : Placed s.places c := (hc.placed_iff c).mpr (by simp [hpc, PushPc.Stored])
  obtain ⟨p, hp, hrest⟩ := hc.linear.exists_unique_place hplaced
  refine ⟨p, ?_, hp, hrest⟩
  cases p with
  | subQueue j => simp [places, hempty j] at hp
  | takenBy t => exact Or.inl ⟨t, rfl⟩
  | ejectedBy e => exact Or.inr ⟨e, rfl⟩

/-- A `push` that has read `is_done_` stores its thunk after `stop_and_eject` has begun, ahead of
the sweep. -/
def drainRun : List (QueueAct Unit) :=
  [.push () .free, .push () .free, .eject (), .push () .free, .push () .free]

theorem tasks_handed_out_drainRun : ∃ s : QueueState Unit 1,
    s.eject () = .returned [()] ∧ (∀ j, s.queue.queues j = []) ∧
      ∃ p, ((∃ t, p = .takenBy t) ∨ ∃ e, p = .ejectedBy e) ∧ (s.places p).count () = 1 ∧
        ∀ p', p' ≠ p → (s.places p').count () = 0 := by
  let S := queueSystem Unit 1
  -- no step decrements `in_push_`
  let test : QueueState Unit 1 → QueueAct Unit → Bool := fun s a =>
    match a with
    | .push c _ => s.queue.inPush + 1 < unsignedSize ∧ ¬ (s.push c).Stored
    | _ => true
  have htest : ∀ u a, test u a = true → u.CountedLong a := by
    intro u a ha
    cases a with
    | push c =>
      obtain ⟨hlt, hnot⟩ : u.queue.inPush + 1 < unsignedSize ∧ ¬ (u.push c).Stored := by
        simpa [test] using ha
      refine ⟨fun _ => hlt, ?_⟩
      rintro ⟨x, hx⟩
      exact absurd (by simp [hx, PushPc.Stored]) hnot
    | pop | eject => trivial
  let s₁ := (S.execWhile test .initial drainRun).get (by decide)
  have hs₁ : S.ReachableUnder CountedLong s₁ :=
    System.ReachableUnder.execWhile htest (.init rfl) (Option.some_get _).symm
  -- the sweep is still to come to the thunk
  have hahead : s₁.CountedLong (.push () .free) :=
    ⟨fun _ => by decide, fun _ _ j _ => ⟨(), 0, [], by decide, Nat.zero_le j⟩⟩
  let s₂ := (S.step s₁ (.push () .free)).get (by decide)
  have hs₂ : S.ReachableUnder CountedLong s₂ := hs₁.step hahead (Option.some_get _).symm
  let s := (S.execWhile test s₂ [.eject (), .eject ()]).get (by decide)
  have hs : S.ReachableUnder CountedLong s :=
    System.ReachableUnder.execWhile htest hs₂ (Option.some_get _).symm
  obtain ⟨hempty, hout⟩ := tasks_handed_out (by decide) hs (by decide)
  exact ⟨s, by decide, hempty, hout () none (by decide)⟩

/-- The calls of one `push` and one `stop_and_eject`, on one sub-queue: the thunk is stored after
the sweep, and `in_push_` is back at zero when the sweep looks. -/
def lostTaskRun : List (QueueAct Unit) :=
  [.push () .free, .push () .free, .eject (), .eject (), .push () .free, .push () .free,
    .push () .free, .eject ()]

/-- An accepted thunk is left behind: `push` has returned `true`, `stop_and_eject` has returned,
nothing is in progress, and the thunk is still in the sub-queue. -/
theorem exists_task_lost : ¬ ∀ (n : ℕ) (s : QueueState Unit n), 1 ≤ n →
    (queueSystem Unit n).Reachable s → s.Quiescent → ∀ j < n, s.queue.queues j = [] := by
  intro hall
  let s := ((queueSystem Unit 1).exec .initial lostTaskRun).get (by decide)
  have hs : (queueSystem Unit 1).Reachable s :=
    System.reachable_of_exec rfl (Option.some_get _).symm
  have hempty := hall 1 s le_rfl hs (by decide) 0 (by decide)
  exact absurd hempty (by decide)

end QueueState

end Sgrpc
