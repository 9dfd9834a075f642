import Sgrpc.Interleaving.System

/-!
# Calls that take effect at once

An `Object` says what a call may do to a value, and with which answer, in one step. A history, that
is the calls and the returns of a run in their order, is `Linearizable` if the object explains it:
every call takes effect at one moment between its call and its return, and returns the answer of
that effect.

When a call takes effect, and how, may depend on what happens later. `run_of_guesses` therefore maps
a state of a system to a value of the object with the help of a guess. A guess is made where the run
ends, and is turned into one for the state before, step by step, so that it has come true.
-/

namespace Interleaving

/-- What the calls may do to a value: `effect i v r w` says that the call `i` may answer `r` and
change `v` to `w`. -/
structure Object (κ ρ β : Type*) where
  init : β
  effect : κ → β → ρ → β → Prop

/-- How far a call has come. -/
inductive CallPhase (ρ : Type*) where
  | idle
  | called
  /-- It has taken effect, with this answer. -/
  | done (answer : ρ)
  | returned

/-- What is seen of a call. -/
inductive CallEvent (κ ρ : Type*) where
  | called (i : κ)
  | returned (i : κ) (answer : ρ)

namespace Object

variable {κ ρ β : Type*} [DecidableEq κ]

/-- The runs of an object, with its value, the phases of the calls and the history. -/
inductive Run (O : Object κ ρ β) : β → (κ → CallPhase ρ) → List (CallEvent κ ρ) → Prop
  | init : Run O O.init (fun _ => .idle) []
  | call {v phase h i} : Run O v phase h → phase i = .idle →
      Run O v (Function.update phase i .called) (h ++ [.called i])
  | effect {v phase h i r w} : Run O v phase h → phase i = .called → O.effect i v r w →
      Run O w (Function.update phase i (.done r)) h
  | ret {v phase h i r} : Run O v phase h → phase i = .done r →
      Run O v (Function.update phase i .returned) (h ++ [.returned i r])

/-- The object explains the history. -/
def Linearizable (O : Object κ ρ β) (h : List (CallEvent κ ρ)) : Prop :=
  ∃ v phase, O.Run v phase h

variable {O : Object κ ρ β} {v w : β} {phase : κ → CallPhase ρ} {h : List (CallEvent κ ρ)} {i : κ}
  {r : ρ}

/-- A call that takes effect when it is made. -/
theorem Run.call_effect (hrun : O.Run v phase h) (hi : phase i = .idle) (he : O.effect i v r w) :
    O.Run w (Function.update phase i (.done r)) (h ++ [.called i]) := by
  have hcalled := (hrun.call hi).effect (Function.update_self ..) he
  rwa [Function.update_idem] at hcalled

/-- A call that takes effect when it returns. -/
theorem Run.effect_ret (hrun : O.Run v phase h) (hi : phase i = .called) (he : O.effect i v r w) :
    O.Run w (Function.update phase i .returned) (h ++ [.returned i r]) := by
  have hreturned := (hrun.effect hi he).ret (Function.update_self ..)
  rwa [Function.update_idem] at hreturned

end Object

/-! ### The histories of a system -/

/-- What can be seen of the calls in the states of a system. -/
structure Calls (σ α κ ρ : Type*) where
  /-- The call that takes the step. -/
  caller : α → κ
  /-- The call has not been made. -/
  idle : σ → κ → Bool
  /-- What the call has returned. -/
  answer : σ → κ → Option ρ

variable {σ α κ ρ β Γ : Type*} {S : System σ α}

/-- What is seen of the step `s —a→ s'`. -/
def Calls.events (C : Calls σ α κ ρ) (s : σ) (a : α) (s' : σ) : List (CallEvent κ ρ) :=
  (if C.idle s (C.caller a) then [.called (C.caller a)] else []) ++
    ((C.answer s' (C.caller a)).map (.returned (C.caller a))).toList

/-- The system with the history of its calls. -/
def System.histories (S : System σ α) (C : Calls σ α κ ρ) :
    System (σ × List (CallEvent κ ρ)) α :=
  S.observed [] fun h s a s' => h ++ C.events s a s'

/-- **Linearization with guesses.** For every guess that may come true in the state after a step
there is one that may come true in the state before, such that the object can go on from the value
and the phases of the one to those of the other. Then it explains every history. -/
theorem Object.run_of_guesses [DecidableEq κ] {O : Object κ ρ β} {C : Calls σ α κ ρ}
    (P : σ → α → Prop) (Ok : Γ → σ → Prop) (value : Γ → σ → β)
    (phase : Γ → σ → κ → CallPhase ρ)
    (hinit : ∀ s g, S.Init s → value g s = O.init ∧ phase g s = fun _ => .idle)
    (hstep : ∀ s a s' g', S.ReachableUnder P s → P s a → S.step s a = some s' → Ok g' s' →
      ∃ g, Ok g s ∧ ∀ h, O.Run (value g s) (phase g s) h →
        O.Run (value g' s') (phase g' s') (h ++ C.events s a s'))
    {p : σ × List (CallEvent κ ρ)}
    (hp : (S.histories C).ReachableUnder (fun p a => P p.1 a) p) {g : Γ} (hg : Ok g p.1) :
    O.Run (value g p.1) (phase g p.1) p.2 := by
  suffices hall : ∀ g, Ok g p.1 → O.Run (value g p.1) (phase g p.1) p.2 from hall g hg
  refine hp.invariant (I := fun p => ∀ g, Ok g p.1 → O.Run (value g p.1) (phase g p.1) p.2) ?_ ?_
  · rintro ⟨s, h⟩ ⟨hs, hh⟩ g -
    obtain ⟨hvalue, hphase⟩ := hinit s g hs
    obtain rfl : h = [] := hh
    rw [hvalue, hphase]
    exact .init
  · intro p a p' hr ih hP hs g' hg'
    obtain ⟨hs', hh⟩ := System.step_observed_iff.mp hs
    have hrun : S.ReachableUnder P p.1 := hr.of_observed fun _ _ hP => hP
    obtain ⟨g, hg, hgo⟩ := hstep _ _ _ g' hrun hP hs' hg'
    rw [hh]
    exact hgo _ (ih g hg)

end Interleaving
