import Mathlib.Data.Nat.ModEq
import Mathlib.Data.Set.Card
import Mathlib.Tactic.Common

/-!
# Counters of agents

A shared counter that every agent increments on the way in and decrements on the way out
counts the agents that are inside. `Counts n p` says so for any type of agents, finite or
not; the lemmas say what one agent's entering, leaving or moving on does to it.

An agent that leaves without decrementing the counter makes it exceed the number of agents inside
(`Exceeds`). When the counter has a size and wraps, what it exceeds by is known up to multiples of
the size only (`ExceedsMod`), and it can be exact by accident (`ExceedsMod.counts_iff`).
-/

namespace Interleaving

variable {ι : Type*} {n : ℕ} {p q : ι → Prop} {i : ι}

/-- Exactly `n` agents satisfy `p`. -/
def Counts (n : ℕ) (p : ι → Prop) : Prop := {i | p i}.encard = n

namespace Counts

/-- Nobody is inside initially. -/
theorem zero_of_forall_not (h : ∀ i, ¬ p i) : Counts 0 p := by
  simp [Counts, h]

/-- A counter that reads zero: nobody is inside. -/
theorem not_of_zero (h : Counts 0 p) (i : ι) : ¬ p i := by
  have hempty : {i | p i} = ∅ := by simpa [Counts] using h
  exact fun hi => (Set.eq_empty_iff_forall_notMem.mp hempty) i hi

/-- An agent inside keeps the counter positive. -/
theorem pos (h : Counts n p) (hi : p i) : 0 < n := by
  rcases Nat.eq_zero_or_pos n with rfl | hn
  · exact absurd hi (h.not_of_zero i)
  · exact hn

/-- A counter that is positive: somebody is inside. -/
theorem exists_of_pos (h : Counts n p) (hn : 0 < n) : ∃ i, p i := by
  by_contra hnone
  have hzero : Counts 0 p := zero_of_forall_not fun i hi => hnone ⟨i, hi⟩
  have heq : (n : ℕ∞) = 0 := h.symm.trans hzero
  exact hn.ne' (by exact_mod_cast heq)

/-- The number of agents inside is determined. -/
theorem unique {m : ℕ} (h : Counts n p) (h' : Counts m p) : n = m := by
  have heq : (n : ℕ∞) = m := h.symm.trans h'
  exact_mod_cast heq

/-- Moves that keep every agent inside, or outside, keep the count. -/
theorem congr (h : Counts n p) (hpq : ∀ i, q i ↔ p i) : Counts n q := by
  have hset : {i | q i} = {i | p i} := Set.ext hpq
  rw [Counts, hset]
  exact h

/-- The agent `i` enters: the counter is incremented. -/
theorem enter (h : Counts n p) (hout : ¬ p i) (hin : q i) (hne : ∀ j, j ≠ i → (q j ↔ p j)) :
    Counts (n + 1) q := by
  have hset : {j | q j} = insert i {j | p j} := by
    ext j
    by_cases hj : j = i
    · simp [hj, hin]
    · simp [hj, hne j hj]
  rw [Counts, hset, Set.encard_insert_of_notMem (by simpa using hout), h]
  simp

/-- The agent `i` leaves: the counter is decremented. -/
theorem leave (h : Counts n p) (hin : p i) (hout : ¬ q i) (hne : ∀ j, j ≠ i → (q j ↔ p j)) :
    Counts (n - 1) q := by
  have hset : {j | q j} = {j | p j} \ {i} := by
    ext j
    by_cases hj : j = i
    · simp [hj, hout]
    · simp [hj, hne j hj]
  rw [Counts, hset, Set.encard_sdiff_singleton_of_mem (by simpa using hin), h]
  norm_cast

end Counts

/-- The counter reads `k` more than the number of agents inside: so many of them have left without
decrementing it. -/
def Exceeds (n : ℕ) (p : ι → Prop) (k : ℕ) : Prop := ∃ m, Counts m p ∧ n = m + k

namespace Exceeds

variable {k : ℕ}

/-- A counter that exceeds by nothing is exact. -/
theorem zero_iff : Exceeds n p 0 ↔ Counts n p := by
  constructor
  · rintro ⟨m, hcount, rfl⟩
    exact hcount
  · exact fun hcount => ⟨n, hcount, rfl⟩

/-- By how much a counter exceeds is determined. -/
theorem unique {k' : ℕ} (h : Exceeds n p k) (h' : Exceeds n p k') : k = k' := by
  obtain ⟨m, hcount, rfl⟩ := h
  obtain ⟨m', hcount', heq⟩ := h'
  have hm : (m : ℕ∞) = m' := hcount.symm.trans hcount'
  have hm' : m = m' := by exact_mod_cast hm
  omega

theorem congr (h : Exceeds n p k) (hpq : ∀ i, q i ↔ p i) : Exceeds n q k := by
  obtain ⟨m, hcount, hn⟩ := h
  exact ⟨m, hcount.congr hpq, hn⟩

/-- What a counter exceeds by, it is at least. -/
theorem le (h : Exceeds n p k) : k ≤ n := by
  obtain ⟨m, -, rfl⟩ := h
  exact Nat.le_add_left k m

/-- An agent inside keeps the counter positive. -/
theorem pos (h : Exceeds n p k) (hi : p i) : 0 < n := by
  obtain ⟨m, hcount, rfl⟩ := h
  exact Nat.add_pos_left (hcount.pos hi) k

end Exceeds

/-- The same of a counter that has `size` values and wraps. -/
def ExceedsMod (size n : ℕ) (p : ι → Prop) (k : ℕ) : Prop :=
  ∃ m, Counts m p ∧ n = (m + k) % size

namespace ExceedsMod

variable {size k : ℕ}

/-- Nobody is inside initially. -/
theorem zero_of_forall_not (h : ∀ i, ¬ p i) : ExceedsMod size 0 p 0 :=
  ⟨0, .zero_of_forall_not h, (Nat.zero_mod size).symm⟩

theorem lt (h : ExceedsMod size n p k) (hsize : 0 < size) : n < size := by
  obtain ⟨m, -, rfl⟩ := h
  exact Nat.mod_lt _ hsize

/-- When nobody is inside, the counter shows what it exceeds by. -/
theorem eq_of_forall_not (h : ExceedsMod size n p k) (hnone : ∀ i, ¬ p i) : n = k % size := by
  obtain ⟨m, hcount, rfl⟩ := h
  rw [hcount.unique (.zero_of_forall_not hnone), Nat.zero_add]

theorem congr (h : ExceedsMod size n p k) (hpq : ∀ i, q i ↔ p i) : ExceedsMod size n q k := by
  obtain ⟨m, hcount, hn⟩ := h
  exact ⟨m, hcount.congr hpq, hn⟩

/-- A counter that wraps is exact if and only if it has more values than there are agents inside
and exceeds their number by a multiple of its size. -/
theorem counts_iff (h : ExceedsMod size n p k) (hsize : 0 < size) :
    Counts n p ↔ (∃ m < size, Counts m p) ∧ size ∣ k := by
  obtain ⟨m, hcount, rfl⟩ := h
  constructor
  · intro hexact
    have hm : (m + k) % size = m := hexact.unique hcount
    have hlt : m < size := hm ▸ Nat.mod_lt _ hsize
    have hmod : m + k ≡ m + 0 [MOD size] := by
      rw [Nat.ModEq, Nat.add_zero, hm, Nat.mod_eq_of_lt hlt]
    exact ⟨⟨m, hlt, hcount⟩, (Nat.modEq_zero_iff_dvd).mp (Nat.ModEq.add_left_cancel' m hmod)⟩
  · rintro ⟨⟨m', hlt, hcount'⟩, c, rfl⟩
    obtain rfl : m' = m := hcount'.unique hcount
    rwa [Nat.add_mul_mod_self_left, Nat.mod_eq_of_lt hlt]

end ExceedsMod

/-! ### An agent moves -/

section Moves

variable {σ : Type*} [DecidableEq ι] {place : ι → σ} {inside : σ → Prop} {x : σ} {k size : ℕ}

/-- An agent moves, and is inside if it has been. -/
theorem inside_update_iff (hx : inside x ↔ inside (place i)) (j : ι) :
    inside (Function.update place i x j) ↔ inside (place j) := by
  rcases eq_or_ne j i with rfl | hj
  · rw [Function.update_self, hx]
  · rw [Function.update_of_ne hj]

theorem Counts.update (h : Counts n fun j => inside (place j)) (hx : inside x ↔ inside (place i)) :
    Counts n fun j => inside (Function.update place i x j) :=
  h.congr (inside_update_iff hx)

theorem Counts.update_enter (h : Counts n fun j => inside (place j)) (hout : ¬ inside (place i))
    (hin : inside x) : Counts (n + 1) fun j => inside (Function.update place i x j) := by
  refine h.enter hout (by rwa [Function.update_self]) fun j hj => ?_
  rw [Function.update_of_ne hj]

theorem Counts.update_leave (h : Counts n fun j => inside (place j)) (hin : inside (place i))
    (hout : ¬ inside x) : Counts (n - 1) fun j => inside (Function.update place i x j) := by
  refine h.leave hin (by rwa [Function.update_self]) fun j hj => ?_
  rw [Function.update_of_ne hj]

theorem Exceeds.update (h : Exceeds n (fun j => inside (place j)) k)
    (hx : inside x ↔ inside (place i)) :
    Exceeds n (fun j => inside (Function.update place i x j)) k :=
  h.congr (inside_update_iff hx)

theorem Exceeds.update_enter (h : Exceeds n (fun j => inside (place j)) k)
    (hout : ¬ inside (place i)) (hin : inside x) :
    Exceeds (n + 1) (fun j => inside (Function.update place i x j)) k := by
  obtain ⟨m, hcount, rfl⟩ := h
  exact ⟨m + 1, hcount.update_enter hout hin, by omega⟩

theorem Exceeds.update_leave (h : Exceeds n (fun j => inside (place j)) k)
    (hin : inside (place i)) (hout : ¬ inside x) :
    Exceeds (n - 1) (fun j => inside (Function.update place i x j)) k := by
  obtain ⟨m, hcount, rfl⟩ := h
  have hpos := hcount.pos hin
  exact ⟨m - 1, hcount.update_leave hin hout, by omega⟩

/-- The agent leaves, and the counter keeps its increment. -/
theorem Exceeds.update_abandon (h : Exceeds n (fun j => inside (place j)) k)
    (hin : inside (place i)) (hout : ¬ inside x) :
    Exceeds n (fun j => inside (Function.update place i x j)) (k + 1) := by
  obtain ⟨m, hcount, rfl⟩ := h
  have hpos := hcount.pos hin
  exact ⟨m - 1, hcount.update_leave hin hout, by omega⟩

theorem ExceedsMod.update (h : ExceedsMod size n (fun j => inside (place j)) k)
    (hx : inside x ↔ inside (place i)) :
    ExceedsMod size n (fun j => inside (Function.update place i x j)) k :=
  h.congr (inside_update_iff hx)

theorem ExceedsMod.update_enter (h : ExceedsMod size n (fun j => inside (place j)) k)
    (hout : ¬ inside (place i)) (hin : inside x) :
    ExceedsMod size ((n + 1) % size) (fun j => inside (Function.update place i x j)) k := by
  obtain ⟨m, hcount, rfl⟩ := h
  exact ⟨m + 1, hcount.update_enter hout hin, by rw [Nat.mod_add_mod, Nat.add_right_comm]⟩

theorem ExceedsMod.update_leave (h : ExceedsMod size n (fun j => inside (place j)) k)
    (hsize : 0 < size) (hin : inside (place i)) (hout : ¬ inside x) :
    ExceedsMod size (if n = 0 then size - 1 else n - 1)
      (fun j => inside (Function.update place i x j)) k := by
  obtain ⟨m, hcount, rfl⟩ := h
  have hpos := hcount.pos hin
  have hmod : (m + k) % size = ((m - 1 + k) % size + 1) % size := by
    rw [Nat.mod_add_mod, Nat.add_right_comm, Nat.sub_add_cancel hpos]
  have hlt : (m - 1 + k) % size < size := Nat.mod_lt _ hsize
  refine ⟨m - 1, hcount.update_leave hin hout, ?_⟩
  rcases Nat.lt_or_eq_of_le (Nat.succ_le_of_lt hlt) with hless | heq
  · rw [hmod, Nat.mod_eq_of_lt hless, if_neg (Nat.succ_ne_zero _), Nat.succ_sub_one]
  · rw [hmod, ← Nat.succ_eq_add_one, heq, Nat.mod_self, if_pos rfl]
    omega

/-- The agent leaves, and the counter keeps its increment. -/
theorem ExceedsMod.update_abandon (h : ExceedsMod size n (fun j => inside (place j)) k)
    (hin : inside (place i)) (hout : ¬ inside x) :
    ExceedsMod size n (fun j => inside (Function.update place i x j)) (k + 1) := by
  obtain ⟨m, hcount, rfl⟩ := h
  have hpos := hcount.pos hin
  have heq : m + k = m - 1 + (k + 1) := by omega
  exact ⟨m - 1, hcount.update_leave hin hout, by rw [heq]⟩

end Moves

end Interleaving
