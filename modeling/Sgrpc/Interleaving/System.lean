import Mathlib.Logic.Function.Basic
import Mathlib.Logic.Relation
import Mathlib.Tactic.Common

/-!
# Interleaved systems and their runs

A `System` has initial states and a partial step function that is deterministic once the
*action* is fixed: the action says which agent moves and what its environment answers (a
failing lock, the next event, …), so the nondeterminism of a schedule is the choice of the
actions. A step that is not enabled is `none`.

`ReachableUnder P` are the states reached by a run all of whose steps `s —a→` meet the
condition `P s a`; `Reachable` are those reached by any run. `Leads P s t` is a run from a
given state. The one induction over runs is `ReachableUnder.invariant` (and `Leads.invariant`
for runs that start in the middle): what the initial states have and every step keeps holds
in every state reached. `logged` adds a log of the actions to the states, `observed` what somebody
has seen who does not interfere. `runFor` is for a step that needs no schedule.
-/

namespace Interleaving

/-- A system: its initial states, and one step for each action. -/
structure System (σ : Type*) (α : Type*) where
  /-- The states in which a run may start. -/
  Init : σ → Prop
  /-- The state after the action, `none` when the action is not enabled. -/
  step : σ → α → Option σ

namespace System

variable {σ α : Type*} (S : System σ α)

/-- The states reached by a run whose every step `s —a→` meets `P s a`. -/
inductive ReachableUnder (P : σ → α → Prop) : σ → Prop
  | init {s : σ} : S.Init s → ReachableUnder P s
  | step {s s' : σ} {a : α} :
      ReachableUnder P s → P s a → S.step s a = some s' → ReachableUnder P s'

/-- The states reached by any run. -/
abbrev Reachable : σ → Prop := S.ReachableUnder fun _ _ => True

/-- `Leads P s t`: a run leads from `s` to `t`, each of its steps meeting `P`. -/
def Leads (P : σ → α → Prop) : σ → σ → Prop :=
  Relation.ReflTransGen fun s s' => ∃ a, P s a ∧ S.step s a = some s'

/-- Run a list of actions, `none` as soon as one of them is not enabled. -/
def exec (s : σ) : List α → Option σ
  | [] => some s
  | a :: as => (S.step s a).bind fun s' => exec s' as

variable {S} {P Q : σ → α → Prop} {s t : σ}

/-! ### Invariants -/

/-- **The run rule.** What holds initially and is kept by every step holds in every state
reached. The step may use that its source state is itself reached. -/
theorem ReachableUnder.invariant {I : σ → Prop} (hinit : ∀ s, S.Init s → I s)
    (hstep : ∀ s a s', S.ReachableUnder P s → I s → P s a → S.step s a = some s' → I s')
    (h : S.ReachableUnder P s) : I s := by
  induction h with
  | init hi => exact hinit _ hi
  | step hr hP hs ih => exact hstep _ _ _ hr ih hP hs

/-- A run that meets a condition meets every weaker one. -/
theorem ReachableUnder.mono (hPQ : ∀ s a, P s a → Q s a) (h : S.ReachableUnder P s) :
    S.ReachableUnder Q s := by
  induction h with
  | init hi => exact .init hi
  | step _ hP hs ih => exact ih.step (hPQ _ _ hP) hs

theorem ReachableUnder.reachable (h : S.ReachableUnder P s) : S.Reachable s :=
  h.mono fun _ _ _ => trivial

/-- A condition may be strengthened by an invariant of the run. -/
theorem ReachableUnder.strengthen {I : σ → Prop} (h : S.ReachableUnder P s)
    (hI : ∀ s, S.ReachableUnder P s → I s) (hPQ : ∀ s a, I s → P s a → Q s a) :
    S.ReachableUnder Q s := by
  induction h with
  | init hi => exact .init hi
  | step hr hP hs ih => exact ih.step (hPQ _ _ (hI _ hr) hP) hs

/-! ### Runs from a given state -/

theorem Leads.refl (s : σ) : S.Leads P s s := Relation.ReflTransGen.refl

theorem Leads.tail {a : α} {u : σ} (h : S.Leads P s t) (hP : P t a) (hs : S.step t a = some u) :
    S.Leads P s u :=
  Relation.ReflTransGen.tail h ⟨a, hP, hs⟩

theorem Leads.trans {u : σ} (h : S.Leads P s t) (h' : S.Leads P t u) : S.Leads P s u :=
  Relation.ReflTransGen.trans h h'

theorem Leads.mono (hPQ : ∀ s a, P s a → Q s a) (h : S.Leads P s t) : S.Leads Q s t := by
  induction h with
  | refl => exact Leads.refl s
  | tail _ hst ih =>
    obtain ⟨a, hP, hs⟩ := hst
    exact ih.tail (hPQ _ _ hP) hs

/-- A reached state leads to reached states only. -/
theorem ReachableUnder.leads (h : S.ReachableUnder P s) (hl : S.Leads P s t) :
    S.ReachableUnder P t := by
  induction hl with
  | refl => exact h
  | tail _ hst ih =>
    obtain ⟨a, hP, hs⟩ := hst
    exact ih.step hP hs

/-- The run rule for a run from `s`: what holds in `s` and is kept by every step holds in
every state `s` leads to. -/
theorem Leads.invariant {I : σ → Prop} (hI : I s)
    (hstep : ∀ s a s', I s → P s a → S.step s a = some s' → I s') (h : S.Leads P s t) : I t := by
  induction h with
  | refl => exact hI
  | tail _ hst ih =>
    obtain ⟨a, hP, hs⟩ := hst
    exact hstep _ _ _ ih hP hs

/-! ### Executing a list of actions -/

theorem leads_of_exec {as : List α} (hP : ∀ s a, P s a) :
    ∀ {s : σ}, S.exec s as = some t → S.Leads P s t := by
  induction as with
  | nil =>
    intro s h
    obtain rfl : s = t := by simpa [exec] using h
    exact Leads.refl s
  | cons a as ih =>
    intro s h
    obtain ⟨u, hu, hrest⟩ := Option.bind_eq_some_iff.mp h
    exact (Leads.refl s |>.tail (hP s a) hu).trans (ih hrest)

/-- Run a list of actions as long as each of them passes the test. -/
def execWhile (S : System σ α) (test : σ → α → Bool) (s : σ) : List α → Option σ
  | [] => some s
  | a :: as => if test s a then (S.step s a).bind fun s' => execWhile S test s' as else none

/-- A list of actions whose steps pass a test for the condition is a run under it. -/
theorem leads_of_execWhile {test : σ → α → Bool} (htest : ∀ s a, test s a = true → P s a)
    {as : List α} : ∀ {s : σ}, S.execWhile test s as = some t → S.Leads P s t := by
  induction as with
  | nil =>
    intro s he
    obtain rfl : s = t := by simpa [System.execWhile] using he
    exact Leads.refl s
  | cons a as ih =>
    intro s he
    simp only [System.execWhile] at he
    split at he
    · next hpass =>
      obtain ⟨u, hu, hrest⟩ := Option.bind_eq_some_iff.mp he
      exact (Leads.refl s |>.tail (htest s a hpass) hu).trans (ih hrest)
    · exact absurd he (by simp)

theorem ReachableUnder.execWhile {test : σ → α → Bool} (htest : ∀ s a, test s a = true → P s a)
    {as : List α} {s : σ} (h : S.ReachableUnder P s) (he : S.execWhile test s as = some t) :
    S.ReachableUnder P t :=
  h.leads (leads_of_execWhile htest he)

/-- The state an executed list of actions ends in is reachable. -/
theorem reachable_of_exec {as : List α} (hs : S.Init s) (h : S.exec s as = some t) :
    S.Reachable t :=
  (ReachableUnder.init hs).leads (leads_of_exec (fun _ _ => trivial) h)

/-! ### Logs -/

/-- The system together with a log of its actions: each action adds what `log` says of it. -/
def logged {β : Type*} (S : System σ α) (log : α → List β) : System (List β × σ) α where
  Init p := p.1 = [] ∧ S.Init p.2
  step p a := (S.step p.2 a).map fun s => (p.1 ++ log a, s)

section Logged

variable {β : Type*} {log : α → List β} {p p' : List β × σ} {a : α}

theorem step_logged_iff : (S.logged log).step p a = some p' ↔
    S.step p.2 a = some p'.2 ∧ p'.1 = p.1 ++ log a := by
  obtain ⟨l, s'⟩ := p'
  simp only [logged, Option.map_eq_some_iff, Prod.mk.injEq]
  constructor
  · rintro ⟨u, hu, rfl, rfl⟩
    exact ⟨hu, rfl⟩
  · rintro ⟨hu, rfl⟩
    exact ⟨s', hu, rfl, rfl⟩

/-- A run with a log is a run, under every condition that the logged run implies. -/
theorem ReachableUnder.of_logged {P : List β × σ → α → Prop}
    (h : (S.logged log).ReachableUnder P p)
    (hPQ : ∀ p a, (S.logged log).ReachableUnder P p → P p a → Q p.2 a) :
    S.ReachableUnder Q p.2 := by
  induction h with
  | init hi => exact .init hi.2
  | step hr hP hs ih => exact ih.step (hPQ _ _ hr hP) (step_logged_iff.mp hs).1

end Logged

/-! ### Observers -/

/-- The system together with what an observer has seen, who does not interfere: `see b s a s'` is
what has been seen after the step `s —a→ s'` if it was `b` before. -/
def observed {β : Type*} (S : System σ α) (b₀ : β) (see : β → σ → α → σ → β) :
    System (σ × β) α where
  Init p := S.Init p.1 ∧ p.2 = b₀
  step p a := (S.step p.1 a).map fun s => (s, see p.2 p.1 a s)

theorem step_observed_iff {β : Type*} {b₀ : β} {see : β → σ → α → σ → β} {p p' : σ × β} {a : α} :
    (S.observed b₀ see).step p a = some p' ↔
      S.step p.1 a = some p'.1 ∧ p'.2 = see p.2 p.1 a p'.1 := by
  obtain ⟨s', b'⟩ := p'
  simp only [observed, Option.map_eq_some_iff, Prod.mk.injEq]
  constructor
  · rintro ⟨u, hu, rfl, rfl⟩
    exact ⟨hu, rfl⟩
  · rintro ⟨hu, rfl⟩
    exact ⟨s', hu, rfl, rfl⟩

/-- A run that is observed is a run. -/
theorem ReachableUnder.of_observed {β : Type*} {b₀ : β} {see : β → σ → α → σ → β}
    {P : σ × β → α → Prop} {p : σ × β} (h : (S.observed b₀ see).ReachableUnder P p)
    (hPQ : ∀ p a, P p a → Q p.1 a) : S.ReachableUnder Q p.1 := by
  induction h with
  | init hi => exact .init hi.1
  | step _ hP hs ih => exact ih.step (hPQ _ _ hP) (step_observed_iff.mp hs).1

/-- Every run can be observed. -/
theorem ReachableUnder.exists_observed {β : Type*} (b₀ : β) (see : β → σ → α → σ → β)
    (h : S.ReachableUnder P s) :
    ∃ b, (S.observed b₀ see).ReachableUnder (fun p a => P p.1 a) (s, b) := by
  induction h with
  | init hi => exact ⟨b₀, .init ⟨hi, rfl⟩⟩
  | step _ hP hs ih =>
    obtain ⟨b, hb⟩ := ih
    exact ⟨see b _ _ _, hb.step hP (step_observed_iff.mpr ⟨hs, rfl⟩)⟩

end System

/-! ### An agent that is left alone -/

section RunFor

variable {σ : Type*} {step : σ → Option σ} {s s' : σ} {fuel : ℕ}

/-- Take steps until none is enabled, at most `fuel` of them. -/
def runFor (step : σ → Option σ) : ℕ → σ → σ
  | 0, s => s
  | fuel + 1, s =>
      match step s with
      | some s' => runFor step fuel s'
      | none => s

theorem runFor_of_step (h : step s = some s') : runFor step (fuel + 1) s = runFor step fuel s' := by
  simp only [runFor, h]

theorem runFor_of_end (h : step s = none) : runFor step fuel s = s := by
  cases fuel <;> simp [runFor, h]

end RunFor

end Interleaving
