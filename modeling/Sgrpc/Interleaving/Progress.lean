import Mathlib.Order.WellFounded
import Sgrpc.Interleaving.System

/-!
# What a run may still reach

`MayReach S P s G` says that the agents can be scheduled, and their environments can answer, so that
a run from `s` comes to a state with `G`, all of its steps meeting `P`. That it holds of every state
reached means that the system is never stuck on its way to `G`. Such runs are put together one after
the other (`bind`), and in rounds each of which makes a measure smaller (`of_measure`).
-/

namespace Interleaving

namespace System

variable {σ α : Type*} {S : System σ α} {P Q : σ → α → Prop} {s s' t : σ} {a : α}
  {G H I : σ → Prop}

/-- A run from `s` may reach a state with `G`. -/
def MayReach (S : System σ α) (P : σ → α → Prop) (s : σ) (G : σ → Prop) : Prop :=
  ∃ t, S.Leads P s t ∧ G t

namespace MayReach

theorem now (h : G s) : S.MayReach P s G := ⟨s, Leads.refl s, h⟩

theorem mono (hPQ : ∀ s a, P s a → Q s a) (h : S.MayReach P s G) : S.MayReach Q s G := by
  obtain ⟨t, hl, hG⟩ := h
  exact ⟨t, hl.mono hPQ, hG⟩

/-- The run goes on from where it has come to. -/
theorem bind (h : S.MayReach P s G) (h' : ∀ t, S.Leads P s t → G t → S.MayReach P t H) :
    S.MayReach P s H := by
  obtain ⟨t, hl, hG⟩ := h
  obtain ⟨u, hl', hH⟩ := h' t hl hG
  exact ⟨u, hl.trans hl', hH⟩

theorem imp (h : S.MayReach P s G) (h' : ∀ t, S.Leads P s t → G t → H t) : S.MayReach P s H :=
  h.bind fun t hl hG => now (h' t hl hG)

/-- One step, and then a run. -/
theorem step (hP : P s a) (hs : S.step s a = some s') (h : S.MayReach P s' G) :
    S.MayReach P s G := by
  obtain ⟨t, hl, hG⟩ := h
  exact ⟨t, ((Leads.refl s).tail hP hs).trans hl, hG⟩

/-- **The progress rule.** Each round reaches the goal or makes the measure smaller. -/
theorem of_measure {β : Type*} [LT β] [WellFoundedLT β] (m : σ → β)
    (hround : ∀ t, I t → S.MayReach P t fun u => G u ∨ I u ∧ m u < m t) (hs : I s) :
    S.MayReach P s G := by
  induction hn : m s using WellFoundedLT.induction generalizing s with
  | ind n ih =>
    subst hn
    refine (hround s hs).bind fun t _ ht => ?_
    rcases ht with hG | ⟨hI, hlt⟩
    · exact now hG
    · exact ih (m t) hlt hI rfl

end MayReach

end System

end Interleaving
