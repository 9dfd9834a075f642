import Mathlib.Algebra.Group.Nat.Defs
import Mathlib.Data.Int.CardIntervalMod
import Mathlib.Data.Nat.ModEq
import Mathlib.Tactic.Common

/-!
# Round robin with a counter that wraps

A counter that wraps at `m` and is reduced modulo `n` names one of `n` slots. As long as it does
not wrap, `n` consecutive values name every slot once. Across the wrap they do so only when `n`
divides `m` (`covers_iff`); a window of `2 * n - 1` values always names every slot
(`exists_slot_eq`).

The shares of the slots that the counter has named differ by at most one (`count_map_slot_le`).
`deal` distributes a list over the slots that a counter names; the counter may be any sequence of
slots.
-/

namespace RoundRobin

variable {m n o k j l : ℕ}

/-- The slot of the value `k` of a counter that wraps at `m`. -/
def slot (m n k : ℕ) : ℕ := k % m % n

theorem slot_lt (hn : 0 < n) : slot m n k < n := Nat.mod_lt _ hn

theorem slot_of_lt (hk : k < m) : slot m n k = k % n := by rw [slot, Nat.mod_eq_of_lt hk]

theorem slot_of_dvd (h : n ∣ m) : slot m n k = k % n := Nat.mod_mod_of_dvd k h

@[simp] theorem slot_add_self : slot m n (k + m) = slot m n k := by
  rw [slot, Nat.add_mod_right, slot]

@[simp] theorem slot_mod_add (i : ℕ) : slot m n (k % m + i) = slot m n (k + i) := by
  rw [slot, Nat.mod_add_mod, slot]

/-! ### Without a wrap -/

/-- `n` consecutive values name different slots. -/
theorem slot_injOn (h : o + n ≤ m) {i i' : ℕ} (hi : i < n) (hi' : i' < n)
    (heq : slot m n (o + i) = slot m n (o + i')) : i = i' := by
  rw [slot_of_lt (by omega), slot_of_lt (by omega)] at heq
  have hmod : i ≡ i' [MOD n] := Nat.ModEq.add_left_cancel' o heq
  exact hmod.eq_of_lt_of_lt hi hi'

/-- `n` consecutive values are all the residues. -/
theorem exists_add_mod_eq (hj : j < n) (o : ℕ) : ∃ i < n, (o + i) % n = j := by
  have ho := Nat.mod_lt o (Nat.zero_lt_of_lt hj)
  refine ⟨(j + (n - o % n)) % n, Nat.mod_lt _ (Nat.zero_lt_of_lt hj), ?_⟩
  calc (o + (j + (n - o % n)) % n) % n = (o % n + (j + (n - o % n))) % n := by
        rw [Nat.add_mod_mod, Nat.mod_add_mod]
    _ = (j + n) % n := by congr 1; omega
    _ = j := by rw [Nat.add_mod_right, Nat.mod_eq_of_lt hj]

/-- `n` consecutive values name every slot. -/
theorem exists_slot_eq_of_le (h : o + n ≤ m) (hj : j < n) : ∃ i < n, slot m n (o + i) = j := by
  obtain ⟨i, hi, heq⟩ := exists_add_mod_eq hj o
  exact ⟨i, hi, by rw [slot_of_lt (by omega), heq]⟩

/-! ### Across the wrap -/

/-- The counter wraps among the `n` values from `o` on, and `n` does not divide `m`: this slot is
not named. The values before the wrap name the slots below `m % n` and the last ones, those after
it the slots below `o + n - m`. -/
theorem slot_ne_of_wrap (hm : n ≤ m) (ho : o < m) (hwrap : m < o + n) (hdvd : ¬ n ∣ m) {i : ℕ}
    (hi : i < n) : slot m n (o + i) ≠ max (m % n) (o + n - m) := by
  have hr : 0 < m % n := Nat.pos_of_ne_zero fun h => hdvd (Nat.dvd_of_mod_eq_zero h)
  rcases lt_or_ge (o + i) m with hlt | hge
  · -- counted from the multiple of `n` before the last one below `m`
    have hq : 1 ≤ m / n := (Nat.one_le_div_iff (by omega)).mpr hm
    have hsplit : o + i = n * (m / n - 1) + (m % n + (o + n - m) + i) := by
      have hdiv := Nat.div_add_mod m n
      have hpred : n * (m / n - 1) + n = n * (m / n) := by
        rw [← Nat.mul_succ, Nat.succ_eq_add_one, Nat.sub_add_cancel hq]
      omega
    rw [slot_of_lt hlt, hsplit, Nat.mul_add_mod]
    have hrn := Nat.mod_lt m (show 0 < n by omega)
    rcases lt_or_ge (m % n + (o + n - m) + i) n with hsmall | hbig
    · rw [Nat.mod_eq_of_lt hsmall]
      omega
    · rw [Nat.mod_eq_sub_mod hbig, Nat.mod_eq_of_lt (by omega)]
      omega
  · have hover : slot m n (o + i) = o + i - m := by
      have hsum : o + i = o + i - m + m := (Nat.sub_add_cancel hge).symm
      rw [hsum, slot_add_self, slot_of_lt (by omega), Nat.mod_eq_of_lt (by omega)]
      omega
    rw [hover]
    omega

/-- **Exactly when `n` consecutive values name every slot.** -/
theorem covers_iff (hm : n ≤ m) (ho : o < m) :
    (∀ j < n, ∃ i < n, slot m n (o + i) = j) ↔ o + n ≤ m ∨ n ∣ m := by
  constructor
  · intro hcovers
    by_contra hnot
    obtain ⟨hwrap, hdvd⟩ := not_or.mp hnot
    have hmod := Nat.mod_lt m (show 0 < n by omega)
    obtain ⟨i, hi, heq⟩ := hcovers (max (m % n) (o + n - m)) (by omega)
    exact slot_ne_of_wrap hm ho (by omega) hdvd hi heq
  · rintro (hle | hdvd) j hj
    · exact exists_slot_eq_of_le hle hj
    · obtain ⟨i, hi, heq⟩ := exists_add_mod_eq hj o
      exact ⟨i, hi, by rw [slot_of_dvd hdvd, heq]⟩

/-- A window of `2 * n - 1` values names every slot: either its first `n` values do not wrap, or
those after the wrap do not. -/
theorem exists_slot_eq (hm : n ≤ m) (ho : o < m) (hj : j < n) :
    ∃ i < 2 * n - 1, slot m n (o + i) = j := by
  rcases le_or_gt (o + n) m with hle | hgt
  · obtain ⟨i, hi, heq⟩ := exists_slot_eq_of_le hle hj
    exact ⟨i, by omega, heq⟩
  · refine ⟨m - o + j, by omega, ?_⟩
    have hsum : o + (m - o + j) = j + m := by omega
    rw [hsum, slot_add_self, slot_of_lt (by omega), Nat.mod_eq_of_lt hj]

/-! ### Shares -/

/-- How often a slot has been named by the first `l` values, as long as the counter has not wrapped
or the wrap is not seen. -/
theorem count_map_slot (hfit : l ≤ m ∨ n ∣ m) (hj : j < n) :
    ((List.range l).map (slot m n)).count j = l / n + if j < l % n then 1 else 0 := by
  have hslot : ∀ k ∈ List.range l, (slot m n k == j) = decide (k ≡ j [MOD n]) := by
    intro k hk
    have hmod : slot m n k = k % n := by
      rcases hfit with hle | hdvd
      · exact slot_of_lt ((List.mem_range.mp hk).trans_le hle)
      · exact slot_of_dvd hdvd
    show _ = decide (k % n = j % n)
    rw [hmod, Nat.mod_eq_of_lt hj]
    rfl
  calc ((List.range l).map (slot m n)).count j
      = (List.range l).countP fun k => decide (k ≡ j [MOD n]) := by
        rw [List.count, List.countP_map]
        exact List.countP_congr fun k hk => by rw [Function.comp_apply, hslot k hk]
    _ = l.count (· ≡ j [MOD n]) := rfl
    _ = l / n + if j < l % n then 1 else 0 := by
        rw [Nat.count_modEq_card l (Nat.zero_lt_of_lt hj), Nat.mod_eq_of_lt hj]

/-- The shares of two slots differ by one at most. -/
theorem count_map_slot_le (hfit : l ≤ m ∨ n ∣ m) {i : ℕ} (hi : i < n) (hj : j < n) :
    ((List.range l).map (slot m n)).count i ≤ ((List.range l).map (slot m n)).count j + 1 := by
  rw [count_map_slot hfit hi, count_map_slot hfit hj]
  split <;> split <;> omega

/-! ### Dealing a list -/

section Deal

variable {α : Type*} {ι : Type*} [DecidableEq ι] {f : ℕ → ι}

/-- Element `i` of the list goes to the place `f (start + i)`: the list at place `j`. -/
def deal (f : ℕ → ι) : ℕ → List α → ι → List α
  | _, [], _ => []
  | start, a :: l, j => if f start = j then a :: deal f (start + 1) l j else deal f (start + 1) l j

@[simp] theorem deal_nil (start : ℕ) (j : ι) : deal f start ([] : List α) j = [] := rfl

/-- The element dealt last is the last at its place. -/
theorem deal_append_singleton (l : List α) (a : α) : ∀ start : ℕ,
    deal f start (l ++ [a]) = Function.update (deal f start l) (f (start + l.length))
      (deal f start l (f (start + l.length)) ++ [a]) := by
  induction l with
  | nil =>
    intro start
    funext j
    rcases eq_or_ne j (f start) with rfl | hj
    · simp [deal]
    · simp [deal, hj, hj.symm]
  | cons b l ih =>
    intro start
    funext j
    have hlen : start + (b :: l).length = start + 1 + l.length := by
      rw [List.length_cons]
      omega
    rw [hlen, List.cons_append, deal, deal, ih (start + 1)]
    rcases eq_or_ne j (f (start + 1 + l.length)) with rfl | hj
    · by_cases hb : f start = f (start + 1 + l.length) <;> simp [deal, hb]
    · simp [deal, hj]

/-- The element dealt first is the first at its place. -/
theorem deal_cons (a : α) (l : List α) (start : ℕ) :
    deal f start (a :: l) = Function.update (deal f (start + 1) l) (f start)
      (a :: deal f (start + 1) l (f start)) := by
  funext j
  rcases eq_or_ne j (f start) with rfl | hj
  · simp [deal]
  · simp [deal, hj, hj.symm]

end Deal

end RoundRobin
