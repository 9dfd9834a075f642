import Mathlib.Data.List.Nodup
import Mathlib.Data.List.Perm.Basic
import Mathlib.Logic.Function.Basic
import Mathlib.Tactic.Common

/-!
# Tokens in places

A family `L : P → List α` of lists says which tokens lie in which place, in which order. It is
`Linear` when every token lies in at most one place and at most once there: nothing is lost or
duplicated as long as every step either puts a token that lies nowhere (`Linear.insert`) or
moves a block of tokens from one place to another (`Linear.move`).
-/

namespace Interleaving

variable {P α : Type*} {L L' : P → List α} {p p' : P} {xs : List α} {a : α}

/-- Every token lies in at most one place, and at most once there. -/
structure Linear (L : P → List α) : Prop where
  nodup : ∀ p, (L p).Nodup
  unique : ∀ {p p' a}, a ∈ L p → a ∈ L p' → p = p'

/-- The token lies somewhere. -/
def Placed (L : P → List α) (a : α) : Prop := ∃ p, a ∈ L p

/-- `L'` is `L` after the block `xs` has moved from `p` to the end of `p'`. -/
structure Moved (L L' : P → List α) (p p' : P) (xs : List α) : Prop where
  source : (L p).Perm (xs ++ L' p)
  target : L' p' = L p' ++ xs
  rest : ∀ r, r ≠ p → r ≠ p' → L' r = L r

/-- `L'` is `L` after the token `a` was put at the end of `p`. -/
structure Inserted (L L' : P → List α) (p : P) (a : α) : Prop where
  target : L' p = L p ++ [a]
  rest : ∀ r, r ≠ p → L' r = L r

/-- The empty family is linear. -/
theorem Linear.empty (h : ∀ p, L p = []) : Linear L where
  nodup p := by simp [h p]
  unique {p p' a} hp _ := by simp [h p] at hp

/-- Where a linear family holds a token, it holds it exactly once. -/
theorem Linear.count_eq_one [DecidableEq α] (h : Linear L) (ha : a ∈ L p) :
    (L p).count a = 1 :=
  List.count_eq_one_of_mem (h.nodup p) ha

theorem Inserted.mem_iff (h : Inserted L L' p a) {r : P} {b : α} :
    b ∈ L' r ↔ b ∈ L r ∨ (r = p ∧ b = a) := by
  by_cases hr : r = p
  · subst hr
    simp [h.target]
  · simp [h.rest r hr, hr]

theorem Inserted.placed_iff (h : Inserted L L' p a) {b : α} :
    Placed L' b ↔ Placed L b ∨ b = a := by
  simp only [Placed, h.mem_iff]
  constructor
  · rintro ⟨r, hr | ⟨-, rfl⟩⟩
    · exact Or.inl ⟨r, hr⟩
    · exact Or.inr rfl
  · rintro (⟨r, hr⟩ | rfl)
    · exact ⟨r, Or.inl hr⟩
    · exact ⟨p, Or.inr ⟨rfl, rfl⟩⟩

/-- Putting a token that lies nowhere keeps the family linear. -/
theorem Linear.insert (h : Linear L) (hins : Inserted L L' p a) (hfresh : ¬ Placed L a) :
    Linear L' where
  nodup r := by
    by_cases hr : r = p
    · subst hr
      rw [hins.target]
      refine List.nodup_append.mpr ⟨h.nodup r, List.nodup_singleton a, ?_⟩
      rintro b hb c hc rfl
      exact hfresh ⟨r, List.mem_singleton.mp hc ▸ hb⟩
    · rw [hins.rest r hr]
      exact h.nodup r
  unique {r r' b} hb hb' := by
    rcases hins.mem_iff.mp hb with hb | ⟨rfl, rfl⟩ <;>
      rcases hins.mem_iff.mp hb' with hb' | ⟨rfl, hba⟩
    · exact h.unique hb hb'
    · exact absurd ⟨r, hba ▸ hb⟩ hfresh
    · exact absurd ⟨r', hb'⟩ hfresh
    · rfl

theorem Moved.mem_source (h : Moved L L' p p' xs) {b : α} : b ∈ L p ↔ b ∈ xs ∨ b ∈ L' p := by
  rw [h.source.mem_iff, List.mem_append]

/-- Moving tokens around neither creates nor destroys any. -/
theorem Moved.placed_iff (h : Moved L L' p p' xs) (hne : p ≠ p') {b : α} :
    Placed L' b ↔ Placed L b := by
  constructor
  · rintro ⟨r, hr⟩
    by_cases hp : r = p
    · subst hp
      exact ⟨r, h.mem_source.mpr (Or.inr hr)⟩
    · by_cases hp' : r = p'
      · subst hp'
        rw [h.target, List.mem_append] at hr
        rcases hr with hr | hr
        · exact ⟨r, hr⟩
        · exact ⟨p, h.mem_source.mpr (Or.inl hr)⟩
      · exact ⟨r, h.rest r hp hp' ▸ hr⟩
  · rintro ⟨r, hr⟩
    by_cases hp : r = p
    · subst hp
      rcases h.mem_source.mp hr with hr | hr
      · exact ⟨p', by rw [h.target]; exact List.mem_append_right _ hr⟩
      · exact ⟨r, hr⟩
    · by_cases hp' : r = p'
      · subst hp'
        exact ⟨r, by rw [h.target]; exact List.mem_append_left _ hr⟩
      · exact ⟨r, (h.rest r hp hp').symm ▸ hr⟩

/-- A token of the target after the move was there before or has just moved. -/
theorem Moved.mem_cases (h : Moved L L' p p' xs) {r : P} {b : α} (hb : b ∈ L' r) :
    b ∈ L r ∨ (r = p' ∧ b ∈ xs) := by
  by_cases hp' : r = p'
  · subst hp'
    rw [h.target, List.mem_append] at hb
    exact hb.imp id fun hb => ⟨rfl, hb⟩
  · by_cases hp : r = p
    · subst hp
      exact Or.inl (h.mem_source.mpr (Or.inr hb))
    · exact Or.inl (h.rest r hp hp' ▸ hb)

/-- A token stays in its place, or is one of those that move. -/
theorem Moved.stays_or_moves (h : Moved L L' p p' xs) {r : P} {b : α} (hb : b ∈ L r) :
    b ∈ L' r ∨ (r = p ∧ b ∈ xs ∧ b ∈ L' p') := by
  by_cases hp : r = p
  · subst hp
    rcases h.mem_source.mp hb with hx | hstay
    · refine Or.inr ⟨rfl, hx, ?_⟩
      rw [h.target]
      exact List.mem_append_right _ hx
    · exact Or.inl hstay
  · left
    by_cases hp' : r = p'
    · subst hp'
      rw [h.target]
      exact List.mem_append_left _ hb
    · rwa [h.rest r hp hp']

/-- Moving a block of tokens keeps the family linear. -/
theorem Linear.move (h : Linear L) (hm : Moved L L' p p' xs) (hne : p ≠ p') : Linear L' := by
  have hsplit : (xs ++ L' p).Nodup := hm.source.nodup_iff.mp (h.nodup p)
  obtain ⟨hxs, hrem, hdisj⟩ := List.nodup_append.mp hsplit
  have hleft : ∀ b ∈ xs, b ∈ L p := fun b hb => hm.mem_source.mpr (Or.inl hb)
  -- a token of the block lies nowhere but in the target after the move
  have hgone : ∀ {r b}, b ∈ xs → b ∈ L' r → r = p' := by
    intro r b hb hr
    by_contra hp'
    by_cases hp : r = p
    · subst hp
      exact hdisj b hb b hr rfl
    · rw [hm.rest r hp hp'] at hr
      exact hp (h.unique hr (hleft b hb))
  constructor
  · intro r
    by_cases hp' : r = p'
    · subst hp'
      rw [hm.target]
      refine List.nodup_append.mpr ⟨h.nodup r, hxs, ?_⟩
      rintro b hb c hc rfl
      exact hne (h.unique (hleft b hc) hb)
    · by_cases hp : r = p
      · exact hp ▸ hrem
      · rw [hm.rest r hp hp']
        exact h.nodup r
  · intro r r' b hb hb'
    rcases hm.mem_cases hb with hr | ⟨rfl, hx⟩
    · rcases hm.mem_cases hb' with hr' | ⟨rfl, hx'⟩
      · exact h.unique hr hr'
      · exact hgone hx' hb
    · exact (hgone hx hb').symm

/-- A token placed in a linear family is in exactly one place, exactly once, and nowhere
else. -/
theorem Linear.exists_unique_place [DecidableEq α] (h : Linear L) (ha : Placed L a) :
    ∃ p, (L p).count a = 1 ∧ ∀ p', p' ≠ p → (L p').count a = 0 := by
  obtain ⟨p, hp⟩ := ha
  refine ⟨p, h.count_eq_one hp, fun p' hne => List.count_eq_zero.mpr fun hp' => ?_⟩
  exact hne (h.unique hp' hp)

end Interleaving
