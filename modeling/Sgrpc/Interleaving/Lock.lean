import Mathlib.Tactic.Common

/-!
# A lock and its holder

A lock that agents take and give back in steps of their own. `Exclusive locked holds` says that
an agent that holds the lock finds it taken, and is the only one that does; the lemmas are the
three things that a step can do to a lock.
-/

namespace Interleaving

variable {ι : Type*} {locked : Bool} {holds holds' : ι → Prop} {i j : ι}

/-- Whoever holds the lock has taken it, and nobody else holds it. -/
structure Exclusive (locked : Bool) (holds : ι → Prop) : Prop where
  taken : ∀ i, holds i → locked = true
  unique : ∀ i j, holds i → holds j → i = j

namespace Exclusive

/-- Nobody holds the lock initially. -/
theorem of_forall_not (h : ∀ i, ¬ holds i) : Exclusive locked holds where
  taken i hi := absurd hi (h i)
  unique i _ hi := absurd hi (h i)

/-- The lock is left alone, and nobody new holds it. -/
theorem mono (h : Exclusive locked holds) (hsub : ∀ i, holds' i → holds i) :
    Exclusive locked holds' where
  taken i hi := h.taken i (hsub i hi)
  unique i j hi hj := h.unique i j (hsub i hi) (hsub j hj)

/-- The agent `i` takes the lock, which is free. -/
theorem acquire (h : Exclusive false holds) (hrest : ∀ j, j ≠ i → holds' j → holds j) :
    Exclusive true holds' := by
  have honly : ∀ j, holds' j → j = i := by
    intro j hj
    by_contra hne
    exact absurd (h.taken j (hrest j hne hj)) Bool.false_ne_true
  exact ⟨fun _ _ => rfl, fun j k hj hk => by rw [honly j hj, honly k hk]⟩

/-- The agent `i`, which holds the lock, gives it back. -/
theorem release (h : Exclusive locked holds) (hi : holds i) (hout : ¬ holds' i)
    (hrest : ∀ j, j ≠ i → holds' j → holds j) : Exclusive false holds' := by
  refine .of_forall_not fun j hj => ?_
  rcases eq_or_ne j i with rfl | hne
  · exact hout hj
  · exact hne (h.unique j i (hrest j hne hj) hi)

end Exclusive

end Interleaving
