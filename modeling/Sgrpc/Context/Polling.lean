import Mathlib.Algebra.Order.BigOperators.Group.Finset
import Sgrpc.Context.Attach
import Sgrpc.Context.Passes
import Sgrpc.RoundRobin.Slots

/-!
# One pass of a worker

The part of `run_one_thread_` between the predicate and the task queue: the closure
`run_completion_queues` goes over one set of queues after the other, with three 32-bit counters,
and stops on a set with its first event. What the calls of `execute_cq_` return is an argument.

Within a set a pass polls different queues, and all of them unless one yields an event. The
counts of queues and of shut-down queues agree at the end exactly when every queue of every set
was polled and has been shut down (`pass_counts`). The workers of a context count so, in every
interleaving (`State.counts_of_reachable`).
-/

namespace Sgrpc

open RoundRobin
open State (nextCqIndex)

/-- What `execute_cq_` returns. -/
inductive CqExecutionResult where
  | ExecutedNone
  | ExecutedOne
  | ShutdownRequested
  deriving DecidableEq

/-- One call of `execute_cq_`, with the index of the queue in its set. -/
structure CqPoll where
  queue : ℕ
  result : CqExecutionResult
  deriving DecidableEq

namespace PassCounts

/-- `run_completion_queues` is called on a set of `size` queues. -/
def enter (c : PassCounts) (size : ℕ) : PassCounts :=
  { c with total := (c.total + size) % unsignedSize, current := c.executed }

/-- The `switch` on the result of `execute_cq_`. -/
def count (c : PassCounts) : CqExecutionResult → PassCounts
  | .ExecutedNone => c
  | .ExecutedOne => { c with executed := (c.executed + 1) % unsignedSize }
  | .ShutdownRequested => { c with shutdown := (c.shutdown + 1) % unsignedSize }

end PassCounts

/-! ### The loop over one set -/

section Set

variable (w size : ℕ) (result : ℕ → CqExecutionResult) (c : PassCounts)

/-- The poll that the loop makes at `i`. -/
def pollAt (i : ℕ) : CqPoll := ⟨nextCqIndex w i size, result i⟩

/-- The loop of `run_completion_queues` after at most `i` iterations: the polls it has made, and
the counters. Once an event has been executed its condition stays false. -/
def pollsUpTo : ℕ → List CqPoll × PassCounts
  | 0 => ([], c)
  | i + 1 =>
      let v := pollsUpTo i
      if v.2.current = v.2.executed then
        (v.1 ++ [pollAt w size result i], v.2.count (result i))
      else v

/-- `run_completion_queues` on a set of `size` queues. -/
def runCompletionQueues : List CqPoll × PassCounts :=
  pollsUpTo w size result (c.enter size) size

/-- How many polls have reported `SHUTDOWN`. -/
def shutdowns (polls : List CqPoll) : ℕ := polls.countP fun p => p.result = .ShutdownRequested

/-- What the loop keeps. It has made one poll for each iteration, with no event, or its last poll
has yielded one. -/
structure LoopOk (i : ℕ) (v : List CqPoll × PassCounts) : Prop where
  polls : v.1 = (List.range v.1.length).map (pollAt w size result)
  total : v.2.total = c.total
  current : v.2.current = c.current
  shutdown : v.2.shutdown % unsignedSize = (c.shutdown + shutdowns v.1) % unsignedSize
  lt : c.shutdown < unsignedSize → v.2.shutdown < unsignedSize
  le : v.1.length ≤ i
  executed_le : v.2.executed ≤ c.executed + v.1.length
  shutdown_le : v.2.shutdown ≤ c.shutdown + v.1.length
  going : v.2.current = v.2.executed → v.1.length = i ∧ ∀ p ∈ v.1, p.result ≠ .ExecutedOne
  ended : v.2.current ≠ v.2.executed → ∃ l p, v.1 = l ++ [p] ∧ p.result = .ExecutedOne ∧
    ∀ p' ∈ l, p'.result ≠ .ExecutedOne

variable {w size result c}

theorem loopOk_zero (hc : c.current = c.executed) : LoopOk w size result c 0 ([], c) where
  polls := rfl
  total := rfl
  current := rfl
  shutdown := rfl
  lt h := h
  le := le_rfl
  executed_le := le_rfl
  shutdown_le := le_rfl
  going _ := ⟨rfl, by simp⟩
  ended h := absurd hc h

/-- The loop has ended: nothing happens any more. -/
theorem LoopOk.stay {i : ℕ} {v : List CqPoll × PassCounts} (h : LoopOk w size result c i v)
    (hne : v.2.current ≠ v.2.executed) : LoopOk w size result c (i + 1) v where
  polls := h.polls
  total := h.total
  current := h.current
  shutdown := h.shutdown
  lt := h.lt
  le := Nat.le_succ_of_le h.le
  executed_le := h.executed_le
  shutdown_le := h.shutdown_le
  going heq := absurd heq hne
  ended := h.ended

/-- One more poll. -/
theorem LoopOk.poll {i : ℕ} {v : List CqPoll × PassCounts} (h : LoopOk w size result c i v)
    (heq : v.2.current = v.2.executed) : LoopOk w size result c (i + 1)
      (v.1 ++ [pollAt w size result i], v.2.count (result i)) := by
  obtain ⟨hlen, hnone⟩ := h.going heq
  have hpolls : v.1 ++ [pollAt w size result i] = (List.range
      (v.1 ++ [pollAt w size result i]).length).map (pollAt w size result) := by
    rw [List.length_append, List.length_singleton, List.range_succ, List.map_append, ← h.polls,
      hlen, List.map_singleton]
  have hle : (v.1 ++ [pollAt w size result i]).length ≤ i + 1 := by
    rw [List.length_append, List.length_singleton, hlen]
  have hshut : shutdowns (v.1 ++ [pollAt w size result i]) =
      shutdowns v.1 + if result i = .ShutdownRequested then 1 else 0 := by
    simp only [shutdowns, List.countP_append, List.countP_singleton, pollAt, decide_eq_true_eq]
  have hsucc : ∀ {a b}, a ≤ b + v.1.length →
      a + 1 ≤ b + (v.1 ++ [pollAt w size result i]).length := by
    intro a b hab
    rw [List.length_append, List.length_singleton]
    omega
  have hexecuted := hsucc h.executed_le
  have hshutdown := hsucc h.shutdown_le
  have hgoing : result i ≠ .ExecutedOne → (v.1 ++ [pollAt w size result i]).length = i + 1 ∧
      ∀ p ∈ v.1 ++ [pollAt w size result i], p.result ≠ .ExecutedOne := by
    intro hr
    refine ⟨by rw [List.length_append, List.length_singleton, hlen], fun p hp => ?_⟩
    rcases List.mem_append.mp hp with hp | hp
    · exact hnone p hp
    · rw [List.mem_singleton.mp hp]
      exact hr
  cases hr : result i with
  | ExecutedNone =>
    refine ⟨hpolls, h.total, h.current, ?_, h.lt, hle, Nat.le_of_succ_le hexecuted,
      Nat.le_of_succ_le hshutdown, fun _ => hgoing (by simp [hr]), fun hne => absurd heq hne⟩
    rw [hshut, hr]
    exact h.shutdown
  | ExecutedOne =>
    refine ⟨hpolls, h.total, h.current, ?_, h.lt, hle, (Nat.mod_le _ _).trans hexecuted,
      Nat.le_of_succ_le hshutdown, fun hcount => ?_, fun _ => ?_⟩
    · rw [hshut, hr]
      exact h.shutdown
    · have hbump : v.2.current = (v.2.executed + 1) % unsignedSize := hcount
      rw [unsignedSize] at hbump
      omega
    · exact ⟨v.1, pollAt w size result i, rfl, hr, hnone⟩
  | ShutdownRequested =>
    refine ⟨hpolls, h.total, h.current, ?_, fun _ => Nat.mod_lt _ (by decide), hle,
      Nat.le_of_succ_le hexecuted, (Nat.mod_le _ _).trans hshutdown,
      fun _ => hgoing (by simp [hr]), fun hne => absurd heq hne⟩
    show (v.2.shutdown + 1) % unsignedSize % unsignedSize = _
    rw [hshut, hr, if_pos rfl, Nat.mod_mod, Nat.add_mod, h.shutdown, ← Nat.add_mod, Nat.add_assoc]

theorem loopOk_pollsUpTo (w size : ℕ) (result : ℕ → CqExecutionResult) {c : PassCounts}
    (hc : c.current = c.executed) (i : ℕ) :
    LoopOk w size result c i (pollsUpTo w size result c i) := by
  induction i with
  | zero => exact loopOk_zero hc
  | succ i ih =>
    simp only [pollsUpTo]
    split
    · next heq => exact ih.poll heq
    · next hne => exact ih.stay hne

/-! ### What one set contributes -/

/-- The loop over a set makes different polls, until the first one that yields an event. -/
theorem LoopOk.queue_lt {i : ℕ} {v : List CqPoll × PassCounts} (h : LoopOk w size result c i v)
    (hi : i ≤ size) {p : CqPoll} (hp : p ∈ v.1) : p.queue < size := by
  have hle := h.le
  rw [h.polls] at hp
  obtain ⟨k, hk, rfl⟩ := List.mem_map.mp hp
  have hklt := List.mem_range.mp hk
  exact slot_lt (by omega)

theorem LoopOk.nodup {i : ℕ} {v : List CqPoll × PassCounts} (h : LoopOk w size result c i v)
    (hi : i ≤ size) (hw : w + size ≤ unsignedSize) : (v.1.map CqPoll.queue).Nodup := by
  have hle := h.le
  rw [h.polls, List.map_map]
  refine List.Nodup.map_on (fun k hk k' hk' heq => ?_) List.nodup_range
  have hklt := List.mem_range.mp hk
  have hklt' := List.mem_range.mp hk'
  exact slot_injOn hw (by omega) (by omega) heq

/-- A loop that has met no event has polled every queue. -/
theorem LoopOk.all {v : List CqPoll × PassCounts} (h : LoopOk w size result c size v)
    (hw : w + size ≤ unsignedSize) (hnone : ∀ p ∈ v.1, p.result ≠ .ExecutedOne) {j : ℕ}
    (hj : j < size) : ∃ p ∈ v.1, p.queue = j := by
  have hgoing : v.2.current = v.2.executed := by
    by_contra hne
    obtain ⟨l, p, hv, hp, -⟩ := h.ended hne
    exact hnone p (by simp [hv]) hp
  obtain ⟨i, hi, rfl⟩ := exists_slot_eq_of_le hw hj
  refine ⟨pollAt w size result i, ?_, rfl⟩
  rw [h.polls, (h.going hgoing).1]
  exact List.mem_map_of_mem (List.mem_range.mpr hi)

/-- At most one poll of a set yields an event. -/
theorem LoopOk.executed_le_one {i : ℕ} {v : List CqPoll × PassCounts}
    (h : LoopOk w size result c i v) : (v.1.countP fun p => p.result = .ExecutedOne) ≤ 1 := by
  by_cases heq : v.2.current = v.2.executed
  · rw [List.countP_eq_zero.mpr fun p hp => by simpa using (h.going heq).2 p hp]
    exact Nat.zero_le 1
  · obtain ⟨l, p, hv, hp, hl⟩ := h.ended heq
    rw [hv, List.countP_append, List.countP_eq_zero.mpr fun p' hp' => by simpa using hl p' hp',
      Nat.zero_add]
    exact List.countP_le_length

theorem LoopOk.shutdowns_le {i : ℕ} {v : List CqPoll × PassCounts}
    (h : LoopOk w size result c i v) : shutdowns v.1 ≤ i :=
  List.countP_le_length.trans h.le

/-- As many polls as there are queues report `SHUTDOWN` exactly when every queue was polled and
has. -/
theorem LoopOk.shutdowns_eq_iff {v : List CqPoll × PassCounts}
    (h : LoopOk w size result c size v) (hw : w + size ≤ unsignedSize) :
    shutdowns v.1 = size ↔ ∀ j < size, ⟨j, .ShutdownRequested⟩ ∈ v.1 := by
  constructor
  · intro heq j hj
    have hle : v.1.length ≤ shutdowns v.1 := heq ▸ h.le
    have hall := List.countP_eq_length.mp (le_antisymm List.countP_le_length hle)
    have hshut : ∀ p ∈ v.1, p.result = .ShutdownRequested := fun p hp => by simpa using hall p hp
    obtain ⟨⟨q, r⟩, hp, rfl⟩ := h.all hw (fun p hp => by simp [hshut p hp]) hj
    obtain rfl : r = .ShutdownRequested := hshut _ hp
    exact hp
  · intro hall
    have hshut : ∀ p ∈ v.1, p.result = .ShutdownRequested := by
      intro p hp
      have hmem := hall p.queue (h.queue_lt le_rfl hp)
      rw [List.inj_on_of_nodup_map (h.nodup le_rfl hw) hp hmem rfl]
    have hgoing : v.2.current = v.2.executed := by
      by_contra hne
      obtain ⟨l, p, hv, hp, -⟩ := h.ended hne
      exact absurd (hp.symm.trans (hshut p (by simp [hv]))) (by simp)
    rw [shutdowns, List.countP_eq_length.mpr fun p hp => by simpa using hshut p hp,
      (h.going hgoing).1]

end Set

/-! ### A whole pass -/

section Sets

variable (w : ℕ) (size : ℕ → ℕ) (result : ℕ → ℕ → CqExecutionResult)

/-- The counters of a pass when `k` sets are done; the sets have the sizes `size`, and poll `i` of
set `k` returns `result k i`. -/
def countsAfter : ℕ → PassCounts
  | 0 => ⟨0, 0, 0, 0⟩
  | k + 1 => (runCompletionQueues w (size k) (result k) (countsAfter k)).2

/-- The polls of a pass in set `k`. -/
def pollsIn (k : ℕ) : List CqPoll :=
  (runCompletionQueues w (size k) (result k) (countsAfter w size result k)).1

/-- `shutdown_cq_count == total_cq_count`, after the `m` sets. -/
def LeavesLoop (m : ℕ) : Prop :=
  (countsAfter w size result m).shutdown = (countsAfter w size result m).total

/-- The number of queues in the first `m` sets. -/
def totalSize (m : ℕ) : ℕ := ∑ k ∈ Finset.range m, size k

theorem loopOk_set (k : ℕ) : LoopOk w (size k) (result k)
    ((countsAfter w size result k).enter (size k)) (size k)
    (runCompletionQueues w (size k) (result k) (countsAfter w size result k)) :=
  loopOk_pollsUpTo _ _ _ rfl _

/-- The two totals, in 32 bits. -/
theorem countsAfter_eq (m : ℕ) :
    (countsAfter w size result m).total = totalSize size m % unsignedSize ∧
    (countsAfter w size result m).shutdown =
      (∑ k ∈ Finset.range m, shutdowns (pollsIn w size result k)) % unsignedSize := by
  induction m with
  | zero => exact ⟨rfl, rfl⟩
  | succ m ih =>
    obtain ⟨htotal, hshutdown⟩ := ih
    have hset := loopOk_set w size result m
    have hlt : (countsAfter w size result (m + 1)).shutdown < unsignedSize :=
      hset.lt (hshutdown ▸ Nat.mod_lt _ (by decide))
    constructor
    · calc (countsAfter w size result (m + 1)).total
          = ((countsAfter w size result m).total + size m) % unsignedSize := hset.total
        _ = totalSize size (m + 1) % unsignedSize := by
          rw [htotal, Nat.mod_add_mod, totalSize, totalSize, Finset.sum_range_succ]
    · calc (countsAfter w size result (m + 1)).shutdown
          = (countsAfter w size result (m + 1)).shutdown % unsignedSize :=
            (Nat.mod_eq_of_lt hlt).symm
        _ = ((countsAfter w size result m).shutdown + shutdowns (pollsIn w size result m)) %
            unsignedSize := hset.shutdown
        _ = _ := by rw [hshutdown, Nat.mod_add_mod, Finset.sum_range_succ]

variable {w size result}

theorem size_le_totalSize {k m : ℕ} (hk : k < m) : size k ≤ totalSize size m :=
  Finset.single_le_sum (fun _ _ => Nat.zero_le _) (Finset.mem_range.mpr hk)

/-- The worker leaves its loop exactly when every queue of every set was polled and reported
`SHUTDOWN`. -/
theorem leavesLoop_iff {m : ℕ} (hw : w + totalSize size m < unsignedSize) :
    LeavesLoop w size result m ↔
      ∀ k < m, ∀ j < size k, ⟨j, .ShutdownRequested⟩ ∈ pollsIn w size result k := by
  have hsize : ∀ k < m, w + size k ≤ unsignedSize := by
    intro k hk
    have hle : size k ≤ totalSize size m := size_le_totalSize hk
    omega
  have hle : ∀ k ∈ Finset.range m, shutdowns (pollsIn w size result k) ≤ size k :=
    fun k _ => (loopOk_set w size result k).shutdowns_le
  obtain ⟨htotal, hshutdown⟩ := countsAfter_eq w size result m
  have hsum := Finset.sum_le_sum hle
  have hbound : totalSize size m < unsignedSize := by omega
  -- neither total has wrapped
  rw [LeavesLoop, htotal, hshutdown, Nat.mod_eq_of_lt hbound,
    Nat.mod_eq_of_lt (hsum.trans_lt hbound), totalSize, Finset.sum_eq_sum_iff_of_le hle]
  refine forall_congr' fun k => ?_
  rw [Finset.mem_range]
  exact forall_congr' fun hk => (loopOk_set w size result k).shutdowns_eq_iff (hsize k hk)

/-- What a pass does in one set of queues. -/
structure SetOk (size : ℕ) (polls : List CqPoll) : Prop where
  lt : ∀ p ∈ polls, p.queue < size
  nodup : (polls.map CqPoll.queue).Nodup
  all : (∃ p ∈ polls, p.result = .ExecutedOne) ∨ ∀ j < size, ∃ p ∈ polls, p.queue = j
  executed_le_one : (polls.countP fun p => p.result = .ExecutedOne) ≤ 1

theorem setOk_pollsIn {k : ℕ} (hw : w + size k ≤ unsignedSize) :
    SetOk (size k) (pollsIn w size result k) := by
  have hset := loopOk_set w size result k
  refine ⟨fun p hp => hset.queue_lt le_rfl hp, hset.nodup le_rfl hw, ?_, hset.executed_le_one⟩
  by_cases hone : ∃ p ∈ pollsIn w size result k, p.result = .ExecutedOne
  · exact Or.inl hone
  · push Not at hone
    exact Or.inr fun j hj => hset.all hw hone hj

/-- **A pass counts correctly.** In each set it polls different queues, all of them unless one
yields an event, which at most one does; and the worker leaves its loop after the pass exactly
when every queue of every set was polled and reported `SHUTDOWN`, so no poll of such a pass
returned anything else. -/
theorem pass_counts {m : ℕ} (hw : w + totalSize size m < unsignedSize) :
    (∀ k < m, SetOk (size k) (pollsIn w size result k)) ∧
    (LeavesLoop w size result m ↔
      ∀ k < m, ∀ j < size k, ⟨j, .ShutdownRequested⟩ ∈ pollsIn w size result k) ∧
    (LeavesLoop w size result m →
      ∀ k < m, ∀ p ∈ pollsIn w size result k, p.result = .ShutdownRequested) := by
  have hset : ∀ k < m, SetOk (size k) (pollsIn w size result k) := by
    intro k hk
    have hle : size k ≤ totalSize size m := size_le_totalSize hk
    exact setOk_pollsIn (by omega)
  refine ⟨hset, leavesLoop_iff hw, fun h k hk p hp => ?_⟩
  have hmem := (leavesLoop_iff hw).mp h k hk p.queue ((hset k hk).lt p hp)
  rw [List.inj_on_of_nodup_map (hset k hk).nodup hp hmem rfl]

/-- Worker `1` leaves its loop after a pass over two queues of its own and three of a server that
all report `SHUTDOWN`. -/
theorem pass_counts_all_shutdown :
    LeavesLoop 1 (fun k => k + 2) (fun _ _ => .ShutdownRequested) 2 :=
  (pass_counts (w := 1) (m := 2) (by decide)).2.1.mpr (by decide)

/-! ### The counters of a worker -/

theorem totalSize_succ (m : ℕ) : totalSize size (m + 1) = totalSize size m + size m :=
  Finset.sum_range_succ size m

theorem totalSize_mono {k m : ℕ} (h : k ≤ m) : totalSize size k ≤ totalSize size m :=
  Finset.sum_le_sum_of_subset (Finset.range_mono h)

/-- The counters inside the loop over set `k`, before its iteration `i`. -/
def countsAt (w : ℕ) (size : ℕ → ℕ) (result : ℕ → ℕ → CqExecutionResult) (k i : ℕ) : PassCounts :=
  (pollsUpTo w (size k) (result k) ((countsAfter w size result k).enter (size k)) i).2

theorem countsAt_zero (k : ℕ) :
    countsAt w size result k 0 = (countsAfter w size result k).enter (size k) := rfl

/-- One more poll. -/
theorem countsAt_succ {k i : ℕ}
    (hc : (countsAt w size result k i).current = (countsAt w size result k i).executed) :
    countsAt w size result k (i + 1) = (countsAt w size result k i).count (result k i) :=
  congrArg Prod.snd (if_pos hc)

/-- The loop ends at its bound, or with an event. -/
theorem countsAfter_succ {k i : ℕ} (hi : i ≤ size k) (hend : ¬ (i < size k ∧
    (countsAt w size result k i).current = (countsAt w size result k i).executed)) :
    countsAfter w size result (k + 1) = countsAt w size result k i := by
  have hstay : ∀ d, i + d ≤ size k → countsAt w size result k (i + d) =
      countsAt w size result k i := by
    intro d
    induction d with
    | zero => exact fun _ => rfl
    | succ d ih =>
      intro hd
      have hsame := ih (by omega)
      have hne : (countsAt w size result k (i + d)).current ≠
          (countsAt w size result k (i + d)).executed := by
        rw [hsame]
        exact fun heq => hend ⟨by omega, heq⟩
      rw [← hsame, ← Nat.add_assoc]
      exact congrArg Prod.snd (if_neg hne)
  have hfull := hstay (size k - i) (by omega)
  rwa [Nat.add_sub_cancel' hi] at hfull

/-- The counters depend on the polls made so far only. -/
theorem pollsUpTo_congr {size : ℕ} {result result' : ℕ → CqExecutionResult} {c : PassCounts}
    {i : ℕ} (h : ∀ i' < i, result i' = result' i') :
    pollsUpTo w size result c i = pollsUpTo w size result' c i := by
  induction i with
  | zero => rfl
  | succ i ih =>
    rw [pollsUpTo, pollsUpTo, ih fun i' hi' => h i' (Nat.lt_succ_of_lt hi'), pollAt, pollAt,
      h i (Nat.lt_succ_self i)]

theorem countsAfter_congr {result' : ℕ → ℕ → CqExecutionResult} {k : ℕ}
    (h : ∀ k' < k, result k' = result' k') :
    countsAfter w size result k = countsAfter w size result' k := by
  induction k with
  | zero => rfl
  | succ k ih =>
    rw [countsAfter, countsAfter, ih fun k' hk' => h k' (Nat.lt_succ_of_lt hk'),
      h k (Nat.lt_succ_self k)]

/-- Whatever a poll returns, the counters up to it are those of an assignment that says so. -/
theorem exists_countsAt_eq (w : ℕ) (size : ℕ → ℕ) (result : ℕ → ℕ → CqExecutionResult) (k i : ℕ)
    (r : CqExecutionResult) : ∃ result', result' k i = r ∧
      countsAt w size result' k i = countsAt w size result k i := by
  refine ⟨Function.update result k (Function.update (result k) i r), by simp, ?_⟩
  rw [countsAt, countsAt, Function.update_self]
  have hsets : countsAfter w size (Function.update result k (Function.update (result k) i r)) k =
      countsAfter w size result k :=
    countsAfter_congr fun k' hk' => Function.update_of_ne hk'.ne _ _
  rw [hsets, pollsUpTo_congr fun i' hi' => Function.update_of_ne hi'.ne r (result k)]

theorem countsAfter_le (w : ℕ) (size : ℕ → ℕ) (result : ℕ → ℕ → CqExecutionResult) (k : ℕ) :
    (countsAfter w size result k).executed ≤ totalSize size k ∧
    (countsAfter w size result k).shutdown ≤ totalSize size k := by
  induction k with
  | zero => exact ⟨Nat.zero_le _, Nat.zero_le _⟩
  | succ k ih =>
    have hset := loopOk_set w size result k
    have hle := hset.le
    rw [totalSize_succ]
    exact ⟨hset.executed_le.trans (Nat.add_le_add ih.1 hle),
      hset.shutdown_le.trans (Nat.add_le_add ih.2 hle)⟩

theorem countsAt_le (w : ℕ) (size : ℕ → ℕ) (result : ℕ → ℕ → CqExecutionResult) (k i : ℕ) :
    (countsAt w size result k i).executed ≤ totalSize size k + i ∧
    (countsAt w size result k i).shutdown ≤ totalSize size k + i := by
  have hloop := loopOk_pollsUpTo w (size k) (result k)
    (rfl : ((countsAfter w size result k).enter (size k)).current = _) i
  have hle := hloop.le
  obtain ⟨hexecuted, hshutdown⟩ := countsAfter_le w size result k
  exact ⟨hloop.executed_le.trans (Nat.add_le_add hexecuted hle),
    hloop.shutdown_le.trans (Nat.add_le_add hshutdown hle)⟩

theorem countsAt_total (k i : ℕ) :
    (countsAt w size result k i).total = totalSize size (k + 1) % unsignedSize := by
  have hloop := loopOk_pollsUpTo w (size k) (result k)
    (rfl : ((countsAfter w size result k).enter (size k)).current = _) i
  rw [countsAt, hloop.total, totalSize_succ, ← Nat.mod_add_mod,
    ← (countsAfter_eq w size result k).1]
  rfl

end Sets

namespace State

variable {cfg : Config} {τ : Type*} {s s' : State cfg τ} {w : ℕ}

/-- The queues of all sets together are fewer than `2 ^ 32`. -/
def SizesFit (s : State cfg τ) : Prop :=
  totalSize s.setSize (s.servers.length + 1) < unsignedSize

/-- The counters of a worker are those of a pass over the sets of the context. -/
def CountsOk (s : State cfg τ) (w : ℕ) : WorkerPc → Prop
  | .polling k i c => ∃ result, c = countsAt w s.setSize result k i
  | .completing k i c _ => c.current = c.executed ∧
      ∃ result, c = countsAt w s.setSize result k i
  | .checking c => ∃ result, c = countsAfter w s.setSize result (s.servers.length + 1)
  | _ => True

/-- A poll that has returned: no sum wraps. -/
theorem countsOk_poll (hfit : s.SizesFit) {k i : ℕ} (hk : k ≤ s.servers.length)
    (hi : i < s.setSize k) {result : ℕ → ℕ → CqExecutionResult}
    (hc : (countsAt w s.setSize result k i).current = (countsAt w s.setSize result k i).executed)
    {c : PassCounts} (r : CqExecutionResult)
    (hcount : (countsAt w s.setSize result k i).executed + 1 < unsignedSize →
      (countsAt w s.setSize result k i).shutdown + 1 < unsignedSize →
      c = (countsAt w s.setSize result k i).count r) :
    s.CountsOk w (.polling k (i + 1) c) := by
  have hsum : totalSize s.setSize k + i + 1 < unsignedSize := by
    have hmono : totalSize s.setSize (k + 1) ≤ totalSize s.setSize (s.servers.length + 1) :=
      totalSize_mono (by omega)
    rw [totalSize_succ] at hmono
    rw [SizesFit] at hfit
    omega
  obtain ⟨hexecuted, hshutdown⟩ := countsAt_le w s.setSize result k i
  obtain ⟨result', hr, heq⟩ := exists_countsAt_eq w s.setSize result k i r
  refine ⟨result', ?_⟩
  rw [countsAt_succ (by rw [heq]; exact hc), hr, heq]
  exact hcount (by omega) (by omega)

theorem SizesFit.lt (hfit : s.SizesFit) {k : ℕ} (hk : k ≤ s.servers.length) :
    totalSize s.setSize (k + 1) < unsignedSize :=
  (totalSize_mono (Nat.succ_le_succ hk)).trans_lt hfit

theorem countsOk_startPass (hfit : s.SizesFit) : s.CountsOk w (startPass cfg) := by
  refine ⟨fun _ _ => .ExecutedNone, ?_⟩
  have hlt : cfg.nCqs < unsignedSize :=
    (size_le_totalSize (Nat.succ_pos s.servers.length)).trans_lt hfit
  rw [countsAt_zero, PassCounts.enter]
  simp only [countsAfter, setSize, Nat.zero_add, Nat.mod_eq_of_lt hlt]

/-- The pass goes on to the next set. -/
theorem countsOk_next (hfit : s.SizesFit) {k i : ℕ} {c : PassCounts} (hi : i ≤ s.setSize k)
    (hk : k < s.servers.length) (hend : ¬ (i < s.setSize k ∧ c.current = c.executed))
    (h : s.CountsOk w (.polling k i c)) : s.CountsOk w (.polling (k + 1) 0
      { c with total := c.total + s.setSize (k + 1), current := c.executed }) := by
  obtain ⟨result, rfl⟩ := h
  refine ⟨result, ?_⟩
  have hlt := hfit.lt hk
  have htotal : (countsAt w s.setSize result k i).total = totalSize s.setSize (k + 1) := by
    rw [countsAt_total, Nat.mod_eq_of_lt (hfit.lt hk.le)]
  rw [totalSize_succ, ← htotal] at hlt
  rw [countsAt_zero, countsAfter_succ hi hend, PassCounts.enter, Nat.mod_eq_of_lt hlt]

/-- An event has been executed. -/
theorem countsOk_executed (hfit : s.SizesFit) {k i : ℕ} {c : PassCounts} {what : Completion}
    (hk : k ≤ s.servers.length) (hi : i < s.setSize k)
    (h : s.CountsOk w (.completing k i c what)) :
    s.CountsOk w (.polling k (i + 1) { c with executed := c.executed + 1 }) := by
  obtain ⟨hc, result, rfl⟩ := h
  refine countsOk_poll hfit hk hi hc .ExecutedOne fun hlt _ => ?_
  rw [PassCounts.count, Nat.mod_eq_of_lt hlt]

/-- A step of the loop counts as a pass does. -/
theorem countsOk_loop [DecidableEq τ] (hfit : s.SizesFit) {pc : WorkerPc} {answer : WorkAnswer}
    (hpass : s.PassOk w pc) (h : s.CountsOk w pc) (hs : LoopStep s w answer pc s') :
    ∃ pc', s'.worker = Function.update s.worker w pc' ∧ s.CountsOk w pc' := by
  cases hs with
  | stop => exact ⟨_, rfl, trivial⟩
  | pass | stopped => exact ⟨_, rfl, countsOk_startPass hfit⟩
  | pollNone hi hc =>
    obtain ⟨result, rfl⟩ := h
    exact ⟨_, rfl, countsOk_poll hfit hpass.set_le hi hc .ExecutedNone fun _ _ => rfl⟩
  | pollShutdown hi hc =>
    obtain ⟨result, rfl⟩ := h
    refine ⟨_, rfl, countsOk_poll hfit hpass.set_le hi hc .ShutdownRequested fun _ hlt => ?_⟩
    rw [PassCounts.count, Nat.mod_eq_of_lt hlt]
  | pollEvent hi hc => exact ⟨_, rfl, hc, h⟩
  | nextSet hend hk => exact ⟨_, rfl, countsOk_next hfit hpass.le hk hend h⟩
  | @polled k i _ hend hk =>
    obtain rfl : k = s.servers.length := le_antisymm hpass.set_le (not_lt.mp hk)
    obtain ⟨result, rfl⟩ := h
    exact ⟨_, rfl, result, (countsAfter_succ hpass.le hend).symm⟩
  | @complete k i c what =>
    obtain ⟨pc', hpc', rfl | ⟨what', rfl⟩⟩ := worker_completeStep s w k i c what
    · exact ⟨_, hpc', countsOk_executed hfit hpass.1.set_le hpass.2 h⟩
    · exact ⟨_, hpc', h⟩
  | run | executeNext => exact ⟨_, worker_execute, trivial⟩
  | leave | stay | popCall | pop | popped | missed | ejectCall | eject | ejected | exit =>
    exact ⟨_, rfl, trivial⟩

variable [DecidableEq τ]

/-- The list of servers does not change once a worker exists. -/
theorem servers_of_created (h : (contextSystem cfg τ).Reachable s) {a : Act τ} (hs : Step s a s')
    (hcreated : 0 < s.created) : s'.servers = s.servers := by
  by_contra hne
  have hready := ((attachOk_of_reachable h).servers_of_step hs hne).1
  exact hcreated.ne' ((runOk_of_reachable h).ready hready).1

omit [DecidableEq τ] in
theorem countsOk_of_servers (h : s'.servers = s.servers) {pc : WorkerPc} (hok : s.CountsOk w pc) :
    s'.CountsOk w pc := by
  have hsize := setSize_of_servers h
  cases pc <;> simp only [CountsOk, hsize, h] at hok ⊢ <;> exact hok

/-- **The workers of a context count as a pass does**: the counters with which a worker comes to
the test `shutdown_cq_count == total_cq_count` are those of a pass over all sets of the context. -/
theorem counts_of_reachable (h : (contextSystem cfg τ).Reachable s) (hfit : s.SizesFit) (w : ℕ) :
    s.CountsOk w (s.worker w) := by
  have hinv : s.SizesFit → ∀ w, s.CountsOk w (s.worker w) := by
    refine h.invariant (I := fun u => u.SizesFit → ∀ w, u.CountsOk w (u.worker w)) ?_
      fun u a u' hr hI _ hs hfit' v => ?_
    · rintro _ rfl _ _
      trivial
    · have hstep := (step_spec hs).2
      rcases Nat.eq_zero_or_pos u.created with hzero | hpos
      · have htop : u'.worker v = .top := by
          rcases loop_of_step hstep with hsame | ⟨x, answer, -, hx, -⟩
          · rw [hsame.worker]
            exact worker_of_not_created hr (by omega)
          · omega
        rw [htop]
        trivial
      · have hservers := servers_of_created hr hstep hpos
        have hfit : u.SizesFit := by
          rw [SizesFit, ← setSize_of_servers hservers, ← hservers]
          exact hfit'
        rcases loop_of_step hstep with hsame | ⟨x, answer, -, -, -, hloop⟩
        · rw [hsame.worker]
          exact countsOk_of_servers hservers (hI hfit v)
        · obtain ⟨pc', hpc', hok⟩ :=
            countsOk_loop hfit (passOk_of_reachable hr x) (hI hfit x) hloop
          rw [hpc']
          rcases eq_or_ne v x with rfl | hne
          · rw [Function.update_self]
            exact countsOk_of_servers hservers hok
          · rw [Function.update_of_ne hne]
            exact countsOk_of_servers hservers (hI hfit v)
  exact hinv hfit w

end State

end Sgrpc
