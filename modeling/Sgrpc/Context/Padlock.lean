import Sgrpc.Context.Life
import Sgrpc.Interleaving.Lock

/-!
# The padlock

`padlock_` guards the change to `Running`, the change to `Stopped` with the swap of
`notifications_`, and whatever `attach_server` and `add_notify_at_stopped` check and push. At most
one thread is in one of these sections (`padlockOk_of_reachable`).
-/

namespace Sgrpc

open Interleaving

/-- This `run_while` holds `padlock_`. -/
def RunPc.Locked : RunPc → Prop
  | .setting | .unlocking _ => True
  | _ => False

/-- This `attach_server` holds `padlock_`. -/
def AttachPc.Locked : AttachPc → Prop
  | .locking => False
  | _ => True

/-- This `add_notify_at_stopped` holds `padlock_`. -/
def NotifyPc.Locked : NotifyPc → Prop
  | .locking => False
  | _ => True

/-- This `stop`, or the call that a notification has made in it, holds `padlock_`. -/
def StopPc.Locked : StopPc → Prop
  | .publishing | .swapping | .unlocking _ => True
  | .registering _ pc _ => pc.Locked
  | _ => False

/-- The call holds `padlock_`. -/
def Frame.Locked : Frame → Prop
  | .runWhile pc => pc.Locked
  | .stop pc => pc.Locked
  | .attach _ pc => pc.Locked
  | .notify _ pc => pc.Locked
  | _ => False

namespace State

variable {cfg : Config} {τ : Type*} {s s' : State cfg τ} {a : Act τ} {t : Tid τ}

/-- The thread holds `padlock_`. -/
def Holds (s : State cfg τ) (t : Tid τ) : Prop := ∃ f, s.frame t = some f ∧ f.Locked

theorem not_holds (hf : s.frame t = none) : ¬ s.Holds t := by
  rintro ⟨f, hg, -⟩
  rw [hf] at hg
  cases hg

/-- What a step of the thread `t` does to `padlock_`. -/
inductive PadlockStep (s s' : State cfg τ) (t : Tid τ) : Prop
  | same : s'.padlock = s.padlock → (s'.Holds t → s.Holds t) → PadlockStep s s' t
  | acquire : s.padlock = false → s'.padlock = true → PadlockStep s s' t
  | release : s'.padlock = false → s.Holds t → ¬ s'.Holds t → PadlockStep s s' t

/-- A thread moves on inside its section. -/
theorem PadlockStep.of_locked {f : Frame} (hpadlock : s'.padlock = s.padlock)
    (hf : s.frame t = some f) (hlocked : f.Locked) : PadlockStep s s' t :=
  .same hpadlock fun _ => ⟨f, hf, hlocked⟩

theorem PadlockStep.of_frame_eq (hpadlock : s'.padlock = s.padlock) (hframe : s'.frame = s.frame) :
    PadlockStep s s' t := by
  refine .same hpadlock ?_
  rintro ⟨f, hf, hlocked⟩
  exact ⟨f, hframe ▸ hf, hlocked⟩

variable [DecidableEq τ]

/-- A thread moves on and does not hold the lock afterwards. -/
theorem PadlockStep.of_frame {f : Option Frame} (hpadlock : s'.padlock = s.padlock)
    (hframe : s'.frame = Function.update s.frame t f) (hf : ∀ g, f = some g → ¬ g.Locked) :
    PadlockStep s s' t := by
  refine .same hpadlock ?_
  rintro ⟨g, hg, hlocked⟩
  rw [hframe, Function.update_self] at hg
  exact absurd hlocked (hf g hg)

/-- A thread leaves its section. -/
theorem PadlockStep.of_release {f : Frame} {g : Option Frame} (hpadlock : s'.padlock = false)
    (hframe : s'.frame = Function.update s.frame t g) (hf : s.frame t = some f)
    (hlocked : f.Locked) (hg : ∀ h, g = some h → ¬ h.Locked) : PadlockStep s s' t := by
  refine .release hpadlock ⟨f, hf, hlocked⟩ ?_
  rintro ⟨h, hh, hlocked'⟩
  rw [hframe, Function.update_self] at hh
  exact hg h hh hlocked'

private theorem padlockStep_begin {c : Call} : PadlockStep s (s.begin t c) t := by
  cases c with
  | post | schedule | postAfter | postRpc | startRpc | runWhile | stop | addNotifyAtStopped =>
    exact .of_frame rfl rfl fun g hg => by cases hg; exact id
  | postAt now deadline =>
    simp only [begin]
    split <;> exact .of_frame rfl rfl fun g hg => by cases hg; exact id
  | makeServer wired =>
    obtain ⟨cq, handler, nextHandler, hwire⟩ := wire_eq s s.nextId 0 wired
    simp only [begin, beginAttach, hwire]
    split
    · exact .of_frame_eq rfl rfl
    · exact .of_frame rfl rfl fun g hg => by cases hg; exact id
  | resume h =>
    simp only [begin]
    split
    · exact .of_frame rfl rfl fun g hg => by cases hg; exact id
    · exact .of_frame_eq rfl rfl

private theorem padlockStep_stop {pc : StopPc} (hf : s.frame t = some (.stop pc))
    (h : StopStep s t pc s') : PadlockStep s s' t := by
  cases h with
  | yield | selfJoin | abort => exact .of_frame_eq rfl rfl
  | win | lose | giveUp | proceed | halt | range | join | joined | clear | done | notify | resume
  | reenter => exact .of_frame rfl rfl fun g hg => by cases hg <;> exact id
  | lock hfree | relock hfree => exact .acquire hfree rfl
  | publish | keep | swap | reaccept | rerefuse | repush => exact .of_locked rfl hf trivial
  | unlock | reunlock => exact .of_release rfl rfl hf trivial fun g hg => by cases hg; exact id

theorem padlockStep_of_step (h : Step s a s') : PadlockStep s s' a.thread := by
  cases h with
  | call => exact padlockStep_begin
  | @push _ _ _ _ _ pc' =>
    cases pc' <;> exact .of_frame rfl rfl fun g hg => by cases hg <;> exact id
  | @post _ _ _ pc answer =>
    rcases answer with ⟨slot, _ | _, reenters⟩ <;> rcases pc with - | (_ | _) | i | can <;>
      exact .of_frame rfl rfl fun g hg => by cases hg <;> exact id
  | runWhile hf hrun =>
    cases hrun with
    | lock hfree => exact .acquire hfree rfl
    | win | lose => exact .of_locked rfl hf trivial
    | unlock | giveUp =>
      exact .of_release rfl rfl hf trivial fun g hg => by cases hg <;> exact id
    | spawn | store | done => exact .of_frame rfl rfl fun g hg => by cases hg <;> exact id
  | stop hf hstop => exact padlockStep_stop hf hstop
  | attach hf hat =>
    cases hat with
    | lock hfree => exact .acquire hfree rfl
    | accept | refuse | push => exact .of_locked rfl hf trivial
    | unlock | throw => exact .of_release rfl rfl hf trivial fun g hg => by cases hg
  | notify hf hnot =>
    cases hnot with
    | lock hfree => exact .acquire hfree rfl
    | accept | refuse | push => exact .of_locked rfl hf trivial
    | unlock => exact .of_release rfl rfl hf trivial fun g hg => by cases hg
  | @workEnd t h answer =>
    obtain ⟨cq, hend⟩ := workEndStep_eq s t h answer.stopped
    rw [hend]
    exact .of_frame rfl rfl fun g hg => by cases hg
  | fatal => exact .of_frame_eq rfl rfl
  | work _ _ _ hloop =>
    have hpadlock : s'.padlock = s.padlock := by
      obtain ⟨_, _, _, _, _, _, _, _, _, _, _, _, rfl, -⟩ := loopStep_eq hloop
      rfl
    rcases frame_of_loopStep hloop with hframe | ⟨hframe, -⟩ | ⟨_, _, _, _, _, _, hframe, -⟩
    · exact .of_frame_eq hpadlock hframe
    · exact .of_frame hpadlock hframe fun g hg => by cases hg; exact id
    · exact .of_frame hpadlock hframe fun g hg => by cases hg; exact id

/-- At most one thread holds `padlock_`. -/
theorem padlockOk_of_reachable (h : (contextSystem cfg τ).Reachable s) :
    Exclusive s.padlock s.Holds := by
  refine h.invariant (I := fun u => Exclusive u.padlock u.Holds) ?_ fun u a u' _ hI _ hs => ?_
  · rintro _ rfl
    exact .of_forall_not fun t => not_holds rfl
  · have hstep := (step_spec hs).2
    have hrest : ∀ v, v ≠ a.thread → u'.Holds v → u.Holds v := by
      rintro v hv ⟨f, hf, hlocked⟩
      exact ⟨f, frame_of_step hstep hv ▸ hf, hlocked⟩
    cases padlockStep_of_step hstep with
    | same hpadlock hthread =>
      rw [hpadlock]
      refine hI.mono fun v hv => ?_
      rcases eq_or_ne v a.thread with rfl | hne
      · exact hthread hv
      · exact hrest v hne hv
    | acquire hfree htaken =>
      rw [hfree] at hI
      rw [htaken]
      exact hI.acquire hrest
    | release hfree hin hout =>
      rw [hfree]
      exact hI.release hin hout hrest

/-- Two threads in sections that `padlock_` guards are the same. -/
theorem eq_of_locked (h : (contextSystem cfg τ).Reachable s) {u : Tid τ} {f g : Frame}
    (hf : s.frame t = some f) (hg : s.frame u = some g) (hlocked : f.Locked)
    (hlocked' : g.Locked) : t = u :=
  (padlockOk_of_reachable h).unique t u ⟨f, hf, hlocked⟩ ⟨g, hg, hlocked'⟩

/-- After a step with which the lock is taken, the thread that has moved holds it, or another thread
has held it before. -/
theorem holds_of_step (h : Step s a s') (htaken : s'.padlock = true) :
    s'.Holds a.thread ∨ (s.padlock = true ∧ ¬ s.Holds a.thread) := by
  have hout : ∀ {u f}, s.frame u = some f → ¬ f.Locked → ¬ s.Holds u := by
    rintro u f hf hnot ⟨g, hg, hlocked⟩
    rw [hf] at hg
    cases hg
    exact hnot hlocked
  have hin : ∀ {u f}, s'.frame = Function.update s.frame u (some f) → f.Locked → s'.Holds u :=
    fun hframe hlocked => ⟨_, by rw [hframe, Function.update_self], hlocked⟩
  cases h with
  | @call t c hmay =>
    refine Or.inr ⟨?_, not_holds hmay.1⟩
    cases c with
    | postAt | resume =>
      simp only [begin] at htaken
      split at htaken <;> exact htaken
    | makeServer wired =>
      obtain ⟨cq, handler, nextHandler, hwire⟩ := wire_eq s s.nextId 0 wired
      simp only [begin, beginAttach, hwire] at htaken
      split at htaken <;> exact htaken
    | _ => exact htaken
  | @push _ _ _ _ _ pc' _ hf => cases pc' <;> exact Or.inr ⟨htaken, hout hf id⟩
  | @post _ _ _ pc answer hf =>
    rcases answer with ⟨slot, _ | _, reenters⟩ <;> rcases pc with - | (_ | _) | i | can <;>
      exact Or.inr ⟨htaken, hout hf id⟩
  | runWhile hf hrun =>
    cases hrun with
    | lock | win | lose => exact Or.inl (hin rfl trivial)
    | unlock | giveUp => cases htaken
    | spawn | store | done => exact Or.inr ⟨htaken, hout hf id⟩
  | stop hf hstop =>
    cases hstop with
    | yield | selfJoin | abort | win | lose | giveUp | proceed | halt | range | join | joined
    | clear | done | notify | resume | reenter => exact Or.inr ⟨htaken, hout hf id⟩
    | lock | publish | keep | swap | relock | reaccept | rerefuse | repush =>
      exact Or.inl (hin rfl trivial)
    | unlock | reunlock => cases htaken
  | attach hf hat =>
    cases hat with
    | lock | accept | refuse | push => exact Or.inl (hin rfl trivial)
    | unlock | throw => cases htaken
  | notify hf hnot =>
    cases hnot with
    | lock | accept | refuse | push => exact Or.inl (hin rfl trivial)
    | unlock => cases htaken
  | @workEnd t h answer hf =>
    obtain ⟨cq, hend⟩ := workEndStep_eq s t h answer.stopped
    rw [hend] at htaken
    exact Or.inr ⟨htaken, hout hf id⟩
  | fatal _ hidle => exact Or.inr ⟨htaken, not_holds hidle⟩
  | work _ hidle _ hloop =>
    refine Or.inr ⟨?_, not_holds hidle⟩
    obtain ⟨_, _, _, _, _, _, _, _, _, _, _, _, rfl, -⟩ := loopStep_eq hloop
    exact htaken

/-- Somebody holds `padlock_` when it is taken. -/
theorem exists_holds (h : (contextSystem cfg τ).Reachable s) (htaken : s.padlock = true) :
    ∃ t, s.Holds t := by
  have hinv : s.padlock = true → ∃ t, s.Holds t := by
    refine h.invariant (I := fun u => u.padlock = true → ∃ t, u.Holds t) ?_
      fun u a u' _ hI _ hs htaken' => ?_
    · rintro _ rfl hfree
      cases hfree
    · have hstep := (step_spec hs).2
      rcases holds_of_step hstep htaken' with hholds | ⟨hbefore, hnot⟩
      · exact ⟨a.thread, hholds⟩
      · obtain ⟨t, f, hf, hlocked⟩ := hI hbefore
        have hne : t ≠ a.thread := by
          rintro rfl
          exact hnot ⟨f, hf, hlocked⟩
        exact ⟨t, f, (frame_of_step hstep hne).trans hf, hlocked⟩
  exact hinv htaken

end State

end Sgrpc
