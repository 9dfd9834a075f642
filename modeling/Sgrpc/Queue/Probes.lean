import Sgrpc.Queue.Concurrent
import Sgrpc.RoundRobin.Slots

/-!
# What a concurrent `try_pop` has seen

A `try_pop` looks at one sub-queue after the other while other calls go on. An observer notes what
each call finds (`probeSystem`): the index that it fetches, and the contents and the lock of every
sub-queue it comes to. A call that returns `true` has taken the front of the first sub-queue that it
found open and not empty; one that returns `false` has found `n` of them empty or locked, which are
all sub-queues exactly if the 32-bit sum of index and loop variable does not wrap, or the wrap is
not seen (`probes_of_returned`).
-/

namespace Sgrpc

open Interleaving RoundRobin
open AtomicTaskStealingQueue (probeIndex bump PushStep EjectStep)

variable {ι : Type*} {n : ℕ}

/-- What a `try_pop` finds at a sub-queue. -/
structure Probe (ι : Type*) where
  queue : ℕ
  contents : List ι
  locked : Bool
  deriving DecidableEq, Repr

/-- The sub-queue is empty, or somebody else holds its lock. -/
def Probe.Missed (v : Probe ι) : Prop := v.contents = [] ∨ v.locked = false

/-- A call of `try_pop`, as an observer sees it. -/
structure PopView (ι : Type*) where
  offset : ℕ
  probes : List (Probe ι)
  deriving DecidableEq, Repr

/-- The sub-queues that the call has come to. -/
def PopView.queues (v : PopView ι) : List ℕ := v.probes.map Probe.queue

/-- The call has missed its first `i` sub-queues, in the order of the loop. -/
structure PopView.MissedTo (v : PopView ι) (n i : ℕ) : Prop where
  offset_lt : v.offset < unsignedSize
  queues : v.queues = (List.range i).map (probeIndex n v.offset)
  missed : ∀ b ∈ v.probes, b.Missed

namespace QueueState

variable {s s' : QueueState ι n} {a : QueueAct ι} {views : ι → PopView ι} {p : ι}

/-- What a sub-queue shows to a `try_pop` that comes to it. -/
def probe (s : QueueState ι n) (j : ℕ) (locked : Bool) : Probe ι := ⟨j, s.queue.queues j, locked⟩

/-- What the calls of `try_pop` have seen, after a step. -/
def recordProbes [DecidableEq ι] (views : ι → PopView ι) (s : QueueState ι n) (a : QueueAct ι)
    (_ : QueueState ι n) : ι → PopView ι :=
  match a with
  | .pop p locked =>
      match s.pop p with
      | .idle => Function.update views p ⟨s.queue.popIndex, []⟩
      | .probe _ o i =>
          if i = n then views
          else Function.update views p
            ⟨(views p).offset, (views p).probes ++ [s.probe (probeIndex n o i) locked]⟩
      | .returned _ _ => views
  | .push _ _ | .eject _ => views

end QueueState

/-- The queue with an observer of `try_pop`. -/
def probeSystem (ι : Type*) [DecidableEq ι] (n : ℕ) :
    System (QueueState ι n × (ι → PopView ι)) (QueueAct ι) :=
  (queueSystem ι n).observed (fun _ => ⟨0, []⟩) QueueState.recordProbes

/-! ### One call -/

theorem PopView.MissedTo.snoc {v : PopView ι} {i : ℕ} (h : v.MissedTo n i) {b : Probe ι}
    (hqueue : b.queue = probeIndex n v.offset i) (hmissed : b.Missed) :
    PopView.MissedTo ⟨v.offset, v.probes ++ [b]⟩ n (i + 1) where
  offset_lt := h.offset_lt
  queues := by
    have hqueues : v.probes.map Probe.queue = (List.range i).map (probeIndex n v.offset) := h.queues
    simp only [PopView.queues, List.map_append, List.map_cons, List.map_nil, List.range_succ,
      hqueues, hqueue]
  missed c hc := by
    rcases List.mem_append.mp hc with hold | hnew
    · exact h.missed c hold
    · rw [List.mem_singleton.mp hnew]
      exact hmissed

/-- **Exactly when a call that has missed `n` sub-queues has seen them all.** -/
theorem PopView.MissedTo.covers_iff {v : PopView ι} (h : v.MissedTo n n) (hn : n ≤ unsignedSize) :
    (∀ j < n, ∃ b ∈ v.probes, b.queue = j) ↔
      v.offset + n ≤ unsignedSize ∨ n ∣ unsignedSize := by
  have hmem : ∀ j, (∃ b ∈ v.probes, b.queue = j) ↔
      ∃ i < n, slot unsignedSize n (v.offset + i) = j := by
    intro j
    calc (∃ b ∈ v.probes, b.queue = j) ↔ j ∈ v.queues := List.mem_map.symm
      _ ↔ j ∈ (List.range n).map (probeIndex n v.offset) := by rw [h.queues]
      _ ↔ ∃ i < n, slot unsignedSize n (v.offset + i) = j := by
        simp only [List.mem_map, List.mem_range]
        rfl
  simp only [hmem]
  exact RoundRobin.covers_iff hn h.offset_lt

namespace QueueState

variable [DecidableEq ι] {s s' : QueueState ι n} {a : QueueAct ι} {views : ι → PopView ι} {p : ι}

/-- What a call has seen, by where it is. -/
def ViewOk (v : PopView ι) : PopPc ι → Prop
  | .idle => True
  | .probe _ o i => v.offset = o ∧ i ≤ n ∧ v.MissedTo n i
  | .returned false _ => v.MissedTo n n
  | .returned true x => ∃ i < n, ∃ probes rest f, x = some f ∧
      v.probes = probes ++ [⟨probeIndex n v.offset i, f :: rest, true⟩] ∧
      PopView.MissedTo ⟨v.offset, probes⟩ n i

/-- All calls, and the bound of the index. -/
structure ViewsOk (s : QueueState ι n) (views : ι → PopView ι) : Prop where
  popIndex_lt : s.queue.popIndex < unsignedSize
  view : ∀ p, ViewOk (n := n) (views p) (s.pop p)

omit [DecidableEq ι] in
/-- A `try_pop` goes on if it misses the sub-queue, and returns its front otherwise. -/
theorem popStep_probe {q' : AtomicTaskStealingQueue ι n} {x : Option ι} {o i : ℕ} {locked : Bool}
    {pc' : PopPc ι} {ev : List (QueueEvent ι)} (hi : i ≠ n)
    (h : s.queue.popStep locked (.probe x o i) = some (q', pc', ev)) :
    q'.popIndex = s.queue.popIndex ∧
      ((s.probe (probeIndex n o i) locked).Missed ∧ pc' = .probe x o (i + 1) ∨
        ∃ f rest, s.probe (probeIndex n o i) locked = ⟨probeIndex n o i, f :: rest, true⟩ ∧
          pc' = .returned true (some f)) := by
  simp only [AtomicTaskStealingQueue.popStep, hi, if_false] at h
  cases locked with
  | false =>
    simp only [OptimisiticLockingQueue.tryPop] at h
    cases h
    exact ⟨rfl, Or.inl ⟨Or.inr rfl, rfl⟩⟩
  | true =>
    cases hq : s.queue.queues (probeIndex n o i) with
    | nil =>
      simp only [hq, OptimisiticLockingQueue.tryPop] at h
      cases h
      exact ⟨rfl, Or.inl ⟨Or.inl hq, rfl⟩⟩
    | cons f rest =>
      simp only [hq, OptimisiticLockingQueue.tryPop] at h
      cases h
      exact ⟨rfl, Or.inr ⟨f, rest, by rw [probe, hq], rfl⟩⟩

/-- Only `try_pop` moves `pop_index_` and the calls of `try_pop`. -/
theorem pop_of_step (hs : Step s a s') (hnot : ∀ p locked, a ≠ .pop p locked) :
    s'.queue.popIndex = s.queue.popIndex ∧ s'.pop = s.pop := by
  cases hs with
  | pushCall hidle => exact ⟨rfl, rfl⟩
  | push hpc hpush => cases hpush <;> exact ⟨rfl, rfl⟩
  | popCall hidle => exact absurd rfl (hnot _ _)
  | pop hpc hpop => exact absurd rfl (hnot _ _)
  | ejectCall hidle => exact ⟨rfl, rfl⟩
  | eject hpc heject => cases heject <;> exact ⟨rfl, rfl⟩

/-- A step of one call leaves the views of the others as they are. -/
theorem ViewsOk.update {q : AtomicTaskStealingQueue ι n} {pc : PopPc ι} {ev : List (QueueEvent ι)}
    {v : PopView ι} (h : s.ViewsOk views) (hq : q.popIndex < unsignedSize)
    (hv : ViewOk (n := n) v pc) : (s.afterPop p q pc ev).ViewsOk (Function.update views p v) where
  popIndex_lt := hq
  view p' := by
    rw [pop_afterPop]
    rcases eq_or_ne p' p with rfl | hp
    · rwa [Function.update_self, Function.update_self]
    · rw [Function.update_of_ne hp, Function.update_of_ne hp]
      exact h.view p'

theorem ViewsOk.step (h : s.ViewsOk views) (hs : s.step a = some s') :
    s'.ViewsOk (recordProbes views s a s') := by
  cases a with
  | push c answer =>
    obtain ⟨hindex, hpop⟩ := pop_of_step (step_spec hs) (by simp)
    exact ⟨hindex ▸ h.popIndex_lt, hpop ▸ h.view⟩
  | eject e =>
    obtain ⟨hindex, hpop⟩ := pop_of_step (step_spec hs) (by simp)
    exact ⟨hindex ▸ h.popIndex_lt, hpop ▸ h.view⟩
  | pop p locked =>
    have hview := h.view p
    simp only [QueueState.step] at hs
    simp only [recordProbes]
    cases hpc : s.pop p with
    | idle =>
      simp only [hpc] at hs
      cases hs
      refine h.update (Nat.mod_lt _ (by decide)) ⟨rfl, Nat.zero_le n, h.popIndex_lt, rfl, by simp⟩
    | probe x o i =>
      simp only [hpc] at hs hview ⊢
      obtain ⟨⟨q', pc', ev⟩, hr, rfl⟩ := Option.map_eq_some_iff.mp hs
      obtain ⟨hoffset, hle, hmissed⟩ := hview
      by_cases hi : i = n
      · -- the loop is over
        subst hi
        simp only [AtomicTaskStealingQueue.popStep, if_true] at hr
        cases hr
        have hsame : views = Function.update views p (views p) := (Function.update_eq_self p _).symm
        rw [if_pos rfl, hsame]
        exact h.update h.popIndex_lt hmissed
      · obtain ⟨hindex, ⟨hmiss, rfl⟩ | ⟨f, rest, hhit, rfl⟩⟩ := popStep_probe hi hr
        · rw [if_neg hi]
          refine h.update (hindex ▸ h.popIndex_lt) ⟨hoffset, by omega, hmissed.snoc ?_ hmiss⟩
          rw [hoffset]
          rfl
        · rw [if_neg hi]
          refine h.update (hindex ▸ h.popIndex_lt) ⟨i, by omega, _, rest, f, rfl, ?_, hmissed⟩
          rw [hhit, hoffset]
    | returned popped x =>
      simp only [hpc, AtomicTaskStealingQueue.popStep, Option.map_none] at hs
      cases hs

theorem viewsOk_of_reachable {q : QueueState ι n × (ι → PopView ι)}
    (h : (probeSystem ι n).Reachable q) : q.1.ViewsOk q.2 := by
  refine h.invariant (I := fun q => q.1.ViewsOk q.2) ?_ fun q a q' _ hI _ hs => ?_
  · rintro ⟨_, _⟩ ⟨rfl, rfl⟩
    exact ⟨Nat.two_pow_pos 32, fun _ => trivial⟩
  · obtain ⟨hstep, hviews⟩ := System.step_observed_iff.mp hs
    rw [hviews]
    exact hI.step hstep

/-- **What a concurrent `try_pop` has seen**, whatever other calls do in the meantime. If it returns
`true`, its thunk was the front of a sub-queue whose lock was free, and all sub-queues that it came
to before were empty or locked. If it returns `false`, this is so of `n` sub-queues, each of them at
some moment of the call, and they are all sub-queues exactly if the sum of index and loop variable
does not wrap or `n` divides `2 ^ 32`. -/
theorem probes_of_returned {q : QueueState ι n × (ι → PopView ι)}
    (h : (probeSystem ι n).Reachable q) (hn : n ≤ unsignedSize) (p : ι) :
    (∀ x, q.1.pop p = .returned true x → ∃ i < n, ∃ probes rest f, x = some f ∧
      (q.2 p).probes = probes ++ [⟨probeIndex n (q.2 p).offset i, f :: rest, true⟩] ∧
      probes.map Probe.queue = (List.range i).map (probeIndex n (q.2 p).offset) ∧
      ∀ b ∈ probes, b.Missed) ∧
    (∀ x, q.1.pop p = .returned false x →
      (q.2 p).queues = (List.range n).map (probeIndex n (q.2 p).offset) ∧
      (∀ b ∈ (q.2 p).probes, b.Missed) ∧
      ((∀ j < n, ∃ b ∈ (q.2 p).probes, b.queue = j) ↔
        (q.2 p).offset + n ≤ unsignedSize ∨ n ∣ unsignedSize)) := by
  have hview := (viewsOk_of_reachable h).view p
  constructor
  · intro x hx
    rw [hx] at hview
    obtain ⟨i, hi, probes, rest, f, hf, hprobes, hmissed⟩ := hview
    exact ⟨i, hi, probes, rest, f, hf, hprobes, hmissed.queues, hmissed.missed⟩
  · intro x hx
    rw [hx] at hview
    have hmissed : (q.2 p).MissedTo n n := hview
    exact ⟨hmissed.queues, hmissed.missed, hmissed.covers_iff hn⟩

/-- A thunk is pushed; one `try_pop` finds its sub-queue locked, the next one takes it. -/
def missedPopRun : List (QueueAct ℕ) :=
  [.push 7 .free, .push 7 .free, .push 7 .free, .push 7 .free, .pop 1 true, .pop 1 false,
    .pop 1 true, .pop 1 true, .pop 2 true, .pop 2 true, .pop 2 true]

theorem probes_of_returned_missedPopRun : ∃ q : QueueState ℕ 2 × (ℕ → PopView ℕ),
    q.1.pop 1 = .returned false none ∧ (∀ j < 2, ∃ b ∈ (q.2 1).probes, b.queue = j) ∧
      q.1.pop 2 = .returned true (some 7) ∧ ∃ i < 2, ∃ probes rest f, some 7 = some f ∧
        (q.2 2).probes = probes ++ [⟨probeIndex 2 (q.2 2).offset i, f :: rest, true⟩] ∧
        probes.map Probe.queue = (List.range i).map (probeIndex 2 (q.2 2).offset) ∧
        ∀ b ∈ probes, b.Missed := by
  let S := probeSystem ℕ 2
  let q := (S.exec (.initial, fun _ => ⟨0, []⟩) missedPopRun).get (by decide)
  have hinit : S.Init (.initial, fun _ => ⟨0, []⟩) := ⟨rfl, rfl⟩
  have hq : S.Reachable q := System.reachable_of_exec hinit (Option.some_get _).symm
  have hmissed : q.1.pop 1 = .returned false none := by decide
  have htaken : q.1.pop 2 = .returned true (some 7) := by decide
  obtain ⟨-, -, hcovers⟩ := (probes_of_returned hq (by decide) 1).2 _ hmissed
  exact ⟨q, hmissed, hcovers.mpr (Or.inl (by decide)), htaken,
    (probes_of_returned hq (by decide) 2).1 _ htaken⟩

end QueueState

end Sgrpc
