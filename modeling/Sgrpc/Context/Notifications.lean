import Sgrpc.Context.Attach
import Sgrpc.Context.Join

/-!
# The notifications of `stop`

`add_notify_at_stopped` checks under `padlock_` that the state is below `Stopped` and appends its
thunk, and `stop` makes the change to `Stopped` and takes the whole list under it. So whatever has
been registered is in that list, once and in order, and is executed by this `stop`, also when the
thunks register further ones, which are refused (`notifications_exactly_once`).
-/

namespace Sgrpc

open Interleaving

/-- The call of `add_notify_at_stopped` that the frame is in. -/
def Frame.registers : Frame → Option (ℕ × NotifyPc)
  | .notify id pc => some (id, pc)
  | .stop (.registering id pc _) => some (id, pc)
  | _ => none

/-- This `stop` has taken the list. -/
def StopPc.Swapped : StopPc → Prop
  | .unlocking _ | .notifying _ | .inNotification _ | .registering _ _ _ => True
  | _ => False

/-- The notifications that this `stop` has not executed yet. -/
def StopPc.left : StopPc → List ℕ
  | .unlocking ns | .notifying ns | .inNotification ns | .registering _ _ ns => ns
  | _ => []

theorem StopPc.Swapped.won {pc : StopPc} (h : pc.Swapped) : pc.Won := by
  rw [won_iff]
  constructor
  · rintro rfl
    exact h
  · rintro rfl
    exact h

theorem StopPc.Swapped.not_draining {pc : StopPc} (h : pc.Swapped) : ¬ pc.Draining := by
  intro hd
  unfold Swapped at h
  split at h <;> first | exact h | exact hd

namespace State

variable {cfg : Config} {τ : Type*} {s s' : State cfg τ} {a : Act τ} {t : Tid τ}

/-! ### Registering -/

/-- The call of `add_notify_at_stopped` that the thread is in. -/
def registering (s : State cfg τ) (t : Tid τ) : Option (ℕ × NotifyPc) :=
  (s.frame t).bind Frame.registers

/-- A call of `add_notify_at_stopped` that has passed its check holds `padlock_`. -/
theorem locked_of_registering {id : ℕ} {pc : NotifyPc} (h : s.registering t = some (id, pc))
    (hpc : pc.Locked) : ∃ f, s.frame t = some f ∧ f.Locked ∧ f.registers = some (id, pc) := by
  obtain ⟨f, hf, hreg⟩ := Option.bind_eq_some_iff.mp h
  refine ⟨f, hf, ?_, hreg⟩
  unfold Frame.registers at hreg
  split at hreg <;> cases hreg <;> exact hpc

/-- What a step of the thread `t` does to the registrations. -/
inductive RegisterChange (s s' : State cfg τ) (t : Tid τ) : Prop
  | same : s'.registering t = s.registering t → s'.registered = s.registered →
      RegisterChange s s' t
  | call : s.registering t = none → s'.registering t = some (s.nextId, .locking) →
      s'.registered = s.registered → s'.nextId = s.nextId + 1 → RegisterChange s s' t
  | move {id : ℕ} {pc : NotifyPc} {x : Option (ℕ × NotifyPc)} :
      s.registering t = some (id, pc) → s'.registering t = x →
      (∀ id' pc', x = some (id', pc') → id' = id ∧ pc ≠ .unlocking ∧
        (pc' = .pushing → s'.state ≠ .Stopped) ∧ (pc' = .unlocking → s'.state = .Stopped)) →
      s'.registered = s.registered → RegisterChange s s' t
  | push {id : ℕ} : s.registering t = some (id, .pushing) →
      s'.registering t = some (id, .unlocking) → s'.registered = s.registered ++ [id] →
      RegisterChange s s' t

/-- No registration is in progress, before and after. -/
theorem RegisterChange.of_none (hold : s.registering t = none) (hnew : s'.registering t = none)
    (hregistered : s'.registered = s.registered) : RegisterChange s s' t :=
  .same (hnew.trans hold.symm) hregistered

theorem registering_of_frame {f : Frame} (hf : s.frame t = some f) :
    s.registering t = f.registers := by
  rw [registering, hf, Option.bind_some]

theorem registering_of_idle (hf : s.frame t = none) : s.registering t = none := by
  rw [registering, hf, Option.bind_none]

variable [DecidableEq τ]

theorem registering_update {f : Option Frame} (hframe : s'.frame = Function.update s.frame t f) :
    s'.registering t = f.bind Frame.registers := by
  rw [registering, hframe, Function.update_self]

/-- A thread moves on outside of `add_notify_at_stopped`. -/
theorem RegisterChange.of_frame {f : Option Frame} (hold : s.registering t = none)
    (hframe : s'.frame = Function.update s.frame t f) (hf : f.bind Frame.registers = none)
    (hregistered : s'.registered = s.registered) : RegisterChange s s' t :=
  .of_none hold ((registering_update hframe).trans hf) hregistered

/-- `add_notify_at_stopped` is called. -/
theorem RegisterChange.of_call {f : Option Frame} (hold : s.registering t = none)
    (hframe : s'.frame = Function.update s.frame t f)
    (hf : f.bind Frame.registers = some (s.nextId, .locking))
    (hregistered : s'.registered = s.registered) (hid : s'.nextId = s.nextId + 1) :
    RegisterChange s s' t :=
  .call hold ((registering_update hframe).trans hf) hregistered hid

theorem registerChange_of_registerStep {id : ℕ} {inside : NotifyPc → Frame} {after : Option Frame}
    {pc : NotifyPc} (hinside : ∀ pc, (inside pc).registers = some (id, pc))
    (hafter : after.bind Frame.registers = none) (hf : s.frame t = some (inside pc))
    (h : RegisterStep s t id inside after pc s') : RegisterChange s s' t := by
  have hold : s.registering t = some (id, pc) := by rw [registering_of_frame hf, hinside]
  have hmove : ∀ {pc'}, s'.frame = Function.update s.frame t (some (inside pc')) →
      s'.registering t = some (id, pc') := by
    intro pc' hframe
    rw [registering_update hframe, Option.bind_some, hinside]
  cases h with
  | lock =>
    refine .move hold (hmove rfl) (fun _ _ heq => ?_) rfl
    cases heq
    simp
  | accept hstate =>
    refine .move hold (hmove rfl) (fun _ _ heq => ?_) rfl
    cases heq
    exact ⟨rfl, by simp, fun _ => hstate, by simp⟩
  | refuse hstate =>
    refine .move hold (hmove rfl) (fun _ _ heq => ?_) rfl
    cases heq
    exact ⟨rfl, by simp, by simp, fun _ => hstate⟩
  | push => exact .push hold (hmove rfl) rfl
  | unlock =>
    exact .move hold ((registering_update (f := after) rfl).trans hafter)
      (fun _ _ heq => by cases heq) rfl

private theorem registerChange_begin {c : Call} (h : s.frame t = none) :
    RegisterChange s (s.begin t c) t := by
  have hold := registering_of_idle h
  cases c with
  | post | schedule | postAfter | postRpc | startRpc | runWhile | stop =>
    exact .of_frame hold rfl rfl rfl
  | postAt now deadline =>
    simp only [begin]
    split <;> exact .of_frame hold rfl rfl rfl
  | makeServer wired =>
    obtain ⟨cq, handler, nextHandler, hwire⟩ := wire_eq s s.nextId 0 wired
    simp only [begin, beginAttach, hwire]
    split
    · exact .same rfl rfl
    · exact .of_frame hold rfl rfl rfl
  | resume h' =>
    simp only [begin]
    split
    · exact .of_frame hold rfl rfl rfl
    · exact .same rfl rfl
  | addNotifyAtStopped => exact .of_call hold rfl rfl rfl rfl

private theorem registerChange_reenter {id : ℕ} {ns : List ℕ} {pc : NotifyPc}
    (hf : s.frame t = some (.stop (.registering id pc ns)))
    (h : RegisterStep s t id (fun pc => .stop (.registering id pc ns))
      (some (.stop (.inNotification ns))) pc s') : RegisterChange s s' t :=
  registerChange_of_registerStep (fun _ => rfl) rfl hf h

private theorem registerChange_stop {pc : StopPc} (hf : s.frame t = some (.stop pc))
    (h : StopStep s t pc s') : RegisterChange s s' t := by
  have hold := registering_of_frame hf
  cases h with
  | yield | selfJoin | abort => exact .same rfl rfl
  | win | lose | giveUp | proceed | halt | range | join | joined | clear | lock | publish | keep
  | swap | unlock | done | notify | resume => exact .of_frame hold rfl rfl rfl
  | reenter => exact .of_call hold rfl rfl rfl rfl
  | relock hfree => exact registerChange_reenter hf (.lock hfree)
  | reaccept hstate => exact registerChange_reenter hf (.accept hstate)
  | rerefuse hstate => exact registerChange_reenter hf (.refuse hstate)
  | repush => exact registerChange_reenter hf .push
  | reunlock => exact registerChange_reenter hf .unlock

theorem registerChange_of_step (h : Step s a s') : RegisterChange s s' a.thread := by
  cases h with
  | call hmay => exact registerChange_begin hmay.1
  | @push _ _ _ _ _ pc' _ hf =>
    have hold := registering_of_frame hf
    cases pc' <;> exact .of_frame hold rfl rfl rfl
  | @post _ _ _ pc answer hf =>
    have hold := registering_of_frame hf
    rcases answer with ⟨slot, _ | _, reenters⟩ <;> rcases pc with - | (_ | _) | i | can <;>
      exact .of_frame hold rfl rfl rfl
  | runWhile hf hrun =>
    have hold := registering_of_frame hf
    cases hrun <;> exact .of_frame hold rfl rfl rfl
  | stop hf hstop => exact registerChange_stop hf hstop
  | attach hf hat =>
    have hold := registering_of_frame hf
    cases hat <;> exact .of_frame hold rfl rfl rfl
  | notify hf hnot => exact registerChange_of_registerStep (fun _ => rfl) rfl hf hnot
  | @workEnd t h answer hf =>
    obtain ⟨cq, hend⟩ := workEndStep_eq s t h answer.stopped
    rw [hend]
    exact .of_frame (registering_of_frame hf) rfl rfl rfl
  | fatal => exact .same rfl rfl
  | work _ hw _ hloop =>
    have hold := registering_of_idle hw
    have hregistered : s'.registered = s.registered := by
      obtain ⟨_, _, _, _, _, _, _, _, _, _, _, _, rfl, -⟩ := loopStep_eq hloop
      rfl
    rcases frame_of_loopStep hloop with hframe | ⟨hframe, -⟩ | ⟨_, _, _, _, _, _, hframe, -⟩
    · refine .of_none hold (registering_of_idle ?_) hregistered
      rw [hframe]
      exact hw
    · exact .of_frame hold hframe rfl hregistered
    · exact .of_frame hold hframe rfl hregistered

/-- Every registration is of its own, and made while the state is below `Stopped`. -/
structure RegisterOk (s : State cfg τ) : Prop where
  fresh : ∀ t id pc, s.registering t = some (id, pc) → id < s.nextId
  known : ∀ id ∈ s.registered, id < s.nextId
  unique : ∀ t u id pc pc', s.registering t = some (id, pc) → s.registering u = some (id, pc') →
    t = u
  before : ∀ t id pc, s.registering t = some (id, pc) → pc ≠ .unlocking → id ∉ s.registered
  pushing : ∀ t id, s.registering t = some (id, .pushing) → s.state ≠ .Stopped
  nodup : s.registered.Nodup

/-- The state does not become `Stopped` while a thunk is about to be registered. -/
theorem not_stopped_of_step (h : (contextSystem cfg τ).Reachable s) (hs : Step s a s') {id : ℕ}
    (ht : s.registering t = some (id, .pushing)) (hstate : s.state ≠ .Stopped) :
    s'.state ≠ .Stopped := by
  cases stateChange_of_step hs with
  | same heq => rwa [heq]
  | run _ _ heq | shutDown _ _ heq => simp [heq]
  | @stop u _ _ hu =>
    -- it holds `padlock_`, as the thread that registers does
    obtain ⟨f, hf, hlocked, hreg⟩ := locked_of_registering ht trivial
    have heq := eq_of_locked h hf hu hlocked trivial
    subst heq
    rw [hf] at hu
    cases hu
    cases hreg

omit [DecidableEq τ] in
/-- Nothing is registered, and each call in progress is new or goes on. -/
theorem RegisterOk.of_same (h : s.RegisterOk) (hregistered : s'.registered = s.registered)
    (hid : s.nextId ≤ s'.nextId)
    (hback : ∀ u id pc', s'.registering u = some (id, pc') →
      (u = t ∧ id = s.nextId ∧ pc' = .locking ∧ s.nextId < s'.nextId) ∨
        ∃ pc, s.registering u = some (id, pc) ∧ (pc' ≠ .unlocking → pc ≠ .unlocking) ∧
          (pc' = .pushing → s'.state ≠ .Stopped)) : s'.RegisterOk where
  fresh u id pc' hu := by
    rcases hback u id pc' hu with ⟨-, rfl, -, hlt⟩ | ⟨pc, hu₀, -⟩
    · exact hlt
    · exact (h.fresh u id pc hu₀).trans_le hid
  known id hmem := (h.known id (hregistered ▸ hmem)).trans_le hid
  unique u v id pc pc' hu hv := by
    rcases hback u id pc hu with ⟨rfl, rfl, -⟩ | ⟨pc₀, hu₀, -⟩ <;>
      rcases hback v _ pc' hv with ⟨rfl, heq, -⟩ | ⟨pc₁, hv₁, -⟩
    · rfl
    · exact absurd (h.fresh v _ pc₁ hv₁) (Nat.lt_irrefl _)
    · rw [heq] at hu₀
      exact absurd (h.fresh u _ pc₀ hu₀) (Nat.lt_irrefl _)
    · exact h.unique u v id pc₀ pc₁ hu₀ hv₁
  before u id pc' hu hpc := by
    rw [hregistered]
    rcases hback u id pc' hu with ⟨-, rfl, -⟩ | ⟨pc, hu₀, hkeep, -⟩
    · exact fun hmem => Nat.lt_irrefl _ (h.known _ hmem)
    · exact h.before u id pc hu₀ (hkeep hpc)
  pushing u id hu := by
    rcases hback u id .pushing hu with ⟨-, -, heq, -⟩ | ⟨pc, -, -, hstate⟩
    · cases heq
    · exact hstate rfl
  nodup := hregistered ▸ h.nodup

omit [DecidableEq τ] in
/-- A thunk is registered. -/
theorem RegisterOk.push (h : s.RegisterOk) {id : ℕ} (ht : s.registering t = some (id, .pushing))
    (ht' : s'.registering t = some (id, .unlocking))
    (hregistered : s'.registered = s.registered ++ [id]) (hid : s.nextId ≤ s'.nextId)
    (hother : ∀ u, u ≠ t → s'.registering u = s.registering u)
    (hpushing : ∀ u id, s.registering u = some (id, .pushing) → s'.state ≠ .Stopped) :
    s'.RegisterOk := by
  have hback : ∀ u id' pc', s'.registering u = some (id', pc') →
      (u = t ∧ id' = id ∧ pc' = .unlocking) ∨ (u ≠ t ∧ s.registering u = some (id', pc')) := by
    intro u id' pc' hu
    rcases eq_or_ne u t with rfl | hne
    · rw [ht'] at hu
      cases hu
      exact Or.inl ⟨rfl, rfl, rfl⟩
    · exact Or.inr ⟨hne, hother u hne ▸ hu⟩
  -- nobody else registers under this number
  have hne : ∀ u id' pc', u ≠ t → s.registering u = some (id', pc') → id' ≠ id := by
    rintro u id' pc' hut hu rfl
    exact hut (h.unique u t id' pc' _ hu ht)
  constructor
  · intro u id' pc' hu
    rcases hback u id' pc' hu with ⟨-, rfl, -⟩ | ⟨-, hu⟩
    · exact (h.fresh t id' _ ht).trans_le hid
    · exact (h.fresh u id' pc' hu).trans_le hid
  · intro id' hmem
    rw [hregistered] at hmem
    rcases List.mem_append.mp hmem with hmem | hmem
    · exact (h.known id' hmem).trans_le hid
    · rw [List.mem_singleton.mp hmem]
      exact (h.fresh t id _ ht).trans_le hid
  · intro u v id' pc pc' hu hv
    rcases hback u id' pc hu with ⟨rfl, rfl, -⟩ | ⟨hut, hu⟩ <;>
      rcases hback v _ pc' hv with ⟨rfl, heq, -⟩ | ⟨hvt, hv'⟩
    · rfl
    · exact absurd rfl (hne v _ pc' hvt hv')
    · exact absurd heq (hne u _ pc hut hu)
    · exact h.unique u v id' pc pc' hu hv'
  · intro u id' pc' hu hpc
    rcases hback u id' pc' hu with ⟨-, -, heq⟩ | ⟨hut, hu⟩
    · exact absurd heq hpc
    · rw [hregistered, List.mem_append, List.mem_singleton]
      exact not_or.mpr ⟨h.before u id' pc' hu hpc, hne u id' pc' hut hu⟩
  · intro u id' hu
    rcases hback u id' .pushing hu with ⟨-, -, heq⟩ | ⟨-, hu⟩
    · cases heq
    · exact hpushing u id' hu
  · rw [hregistered, List.nodup_append]
    refine ⟨h.nodup, List.nodup_singleton id, fun id' hmem x hx => ?_⟩
    rintro rfl
    rw [List.mem_singleton.mp hx] at hmem
    exact h.before t id _ ht (by simp) hmem

theorem RegisterOk.step (h : s.RegisterOk) (hr : (contextSystem cfg τ).Reachable s)
    (hs : Step s a s') : s'.RegisterOk := by
  have hid := nextId_of_step hs
  have hother : ∀ u, u ≠ a.thread → s'.registering u = s.registering u := by
    intro u hu
    rw [registering, frame_of_step hs hu, registering]
  have hpushing : ∀ u id, s.registering u = some (id, .pushing) → s'.state ≠ .Stopped :=
    fun u id hu => not_stopped_of_step hr hs hu (h.pushing u id hu)
  have hstay : ∀ u id pc, s.registering u = some (id, pc) →
      (pc ≠ .unlocking → pc ≠ .unlocking) ∧ (pc = .pushing → s'.state ≠ .Stopped) := by
    refine fun u id pc hu => ⟨fun hne => hne, ?_⟩
    rintro rfl
    exact hpushing u id hu
  cases registerChange_of_step hs with
  | same hsame hregistered =>
    refine h.of_same (t := a.thread) hregistered hid fun u id pc' hu => Or.inr ⟨pc', ?_⟩
    have hu₀ : s.registering u = some (id, pc') := by
      rcases eq_or_ne u a.thread with rfl | hne
      · rw [← hsame, hu]
      · rw [← hother u hne, hu]
    exact ⟨hu₀, hstay u id pc' hu₀⟩
  | call _ hnew hregistered hnext =>
    refine h.of_same (t := a.thread) hregistered hid fun u id pc' hu => ?_
    rcases eq_or_ne u a.thread with rfl | hne
    · rw [hnew] at hu
      cases hu
      exact Or.inl ⟨rfl, rfl, rfl, by omega⟩
    · rw [hother u hne] at hu
      exact Or.inr ⟨pc', hu, hstay u id pc' hu⟩
  | @move id pc x hold hnew hx hregistered =>
    refine h.of_same (t := a.thread) hregistered hid fun u id' pc' hu => Or.inr ?_
    rcases eq_or_ne u a.thread with rfl | hne
    · rw [hnew] at hu
      obtain ⟨rfl, hpc, hstate, -⟩ := hx id' pc' hu
      exact ⟨pc, hold, fun _ => hpc, hstate⟩
    · rw [hother u hne] at hu
      exact ⟨pc', hu, hstay u id' pc' hu⟩
  | push hold hnew hregistered => exact h.push hold hnew hregistered hid hother hpushing

theorem registerOk_of_reachable (h : (contextSystem cfg τ).Reachable s) : s.RegisterOk := by
  refine h.invariant ?_ fun _ _ _ hr hI _ hs => hI.step hr (step_spec hs).2
  rintro _ rfl
  exact ⟨fun _ _ _ hf => (by cases hf), fun _ hmem => (by cases hmem),
    fun _ _ _ _ _ hf => (by cases hf), fun _ _ _ hf => (by cases hf),
    fun _ _ hf => (by cases hf), List.nodup_nil⟩

/-- A call that has passed its check has registered its thunk, unless the state is `Stopped`. -/
theorem registered_or_stopped (h : (contextSystem cfg τ).Reachable s) {t : Tid τ} {id : ℕ}
    (ht : s.registering t = some (id, .unlocking)) : id ∈ s.registered ∨ s.state = .Stopped := by
  refine h.invariant (I := fun u => ∀ t id, u.registering t = some (id, .unlocking) →
    id ∈ u.registered ∨ u.state = .Stopped) ?_ (fun u a u' _ hI _ hs t id ht' => ?_) t id ht
  · rintro _ rfl _ _ hf
    cases hf
  · have hstep := (step_spec hs).2
    have hstopped : u.state = .Stopped → u'.state = .Stopped :=
      fun hu => stopped_of_leads hu (.tail (.refl u) trivial hs)
    have hgrow : ∀ id, id ∈ u.registered → id ∈ u'.registered := by
      intro id hmem
      cases registerChange_of_step hstep with
      | same _ hregistered | call _ _ hregistered | move _ _ _ hregistered => rwa [hregistered]
      | push _ _ hregistered =>
        rw [hregistered]
        exact List.mem_append_left _ hmem
    have hold : u.registering t = some (id, .unlocking) →
        id ∈ u'.registered ∨ u'.state = .Stopped :=
      fun hu => (hI t id hu).imp (hgrow id) hstopped
    rcases eq_or_ne t a.thread with rfl | hne
    · cases registerChange_of_step hstep with
      | same hsame => exact hold (hsame ▸ ht')
      | call _ hnew =>
        rw [hnew] at ht'
        cases ht'
      | move _ hnew hx =>
        rw [hnew] at ht'
        exact Or.inr ((hx id _ ht').2.2.2 rfl)
      | push _ hnew hregistered =>
        rw [hnew] at ht'
        cases ht'
        left
        rw [hregistered]
        exact List.mem_append_right _ (List.mem_singleton_self _)
    · refine hold ?_
      rw [← ht', registering, registering, frame_of_step hstep hne]

/-! ### The list -/

/-- No notification has been executed, all are in `notifications_`. -/
structure Kept (s : State cfg τ) : Prop where
  notified : s.notified = []
  notifications : s.notifications = s.registered

/-- The notifications are executed, except for those that are left, and `notifications_` is
empty. -/
structure Handed (s : State cfg τ) (left : List ℕ) : Prop where
  executed : s.notified ++ left = s.registered
  notifications : s.notifications = []

/-- The list is kept until the `stop` that has changed the state to `Stopped` takes it, and
executed by this one. -/
structure NotifyOk (s : State cfg τ) : Prop where
  early : s.state ≠ .Stopped → s.Kept
  swapping : ∀ t, s.frame t = some (.stop .swapping) → s.Kept
  swapped : ∀ t pc, s.frame t = some (.stop pc) → pc.Swapped → s.Handed pc.left
  ended : s.state = .Stopped → (∀ t pc, s.frame t = some (.stop pc) → ¬ pc.Won) → s.Handed []

/-- The notifications are the same in both states. -/
structure SameLists (s s' : State cfg τ) : Prop where
  notified : s'.notified = s.notified
  notifications : s'.notifications = s.notifications
  registered : s'.registered = s.registered

omit [DecidableEq τ] in
theorem Kept.of_same (h : s.Kept) (hsame : SameLists s s') : s'.Kept where
  notified := hsame.notified.trans h.notified
  notifications := by rw [hsame.notifications, hsame.registered, h.notifications]

omit [DecidableEq τ] in
theorem Handed.of_same {left : List ℕ} (h : s.Handed left) (hsame : SameLists s s') :
    s'.Handed left where
  executed := by rw [hsame.notified, hsame.registered, h.executed]
  notifications := hsame.notifications.trans h.notifications

/-- The lists are touched in `stop`, and by the thread that registers a thunk. -/
theorem lists_of_step (h : Step s a s') : SameLists s s' ∨
    (∃ t pc answer, a = .api t answer ∧ s.frame t = some (.stop pc) ∧ StopStep s t pc s') ∨
    ∃ t id, s.registering t = some (id, .pushing) ∧ s'.state = s.state ∧
      s'.notified = s.notified ∧ s'.notifications = s.notifications ++ [id] ∧
      s'.registered = s.registered ++ [id] := by
  cases h with
  | @call _ c =>
    left
    cases c with
    | postAt | resume =>
      simp only [begin]
      split <;> exact ⟨rfl, rfl, rfl⟩
    | makeServer wired =>
      obtain ⟨cq, handler, nextHandler, hwire⟩ := wire_eq s s.nextId 0 wired
      simp only [begin, beginAttach, hwire]
      split <;> exact ⟨rfl, rfl, rfl⟩
    | _ => exact ⟨rfl, rfl, rfl⟩
  | @push _ _ _ _ _ pc' =>
    left
    cases pc' <;> exact ⟨rfl, rfl, rfl⟩
  | @post _ _ _ pc answer =>
    left
    rcases answer with ⟨slot, _ | _, reenters⟩ <;> rcases pc with - | (_ | _) | i | can <;>
      exact ⟨rfl, rfl, rfl⟩
  | runWhile _ hrun =>
    left
    cases hrun <;> exact ⟨rfl, rfl, rfl⟩
  | @stop t pc answer _ hf hstop => exact Or.inr (Or.inl ⟨t, pc, answer, rfl, hf, hstop⟩)
  | attach _ hat =>
    left
    cases hat <;> exact ⟨rfl, rfl, rfl⟩
  | @notify t id _ _ _ hf hnot =>
    have hold := registering_of_frame hf
    cases hnot with
    | push => exact Or.inr (Or.inr ⟨t, id, hold, rfl, rfl, rfl, rfl⟩)
    | lock | accept | refuse | unlock => exact Or.inl ⟨rfl, rfl, rfl⟩
  | @workEnd t h answer =>
    left
    obtain ⟨cq, hend⟩ := workEndStep_eq s t h answer.stopped
    rw [hend]
    exact ⟨rfl, rfl, rfl⟩
  | fatal => exact Or.inl ⟨rfl, rfl, rfl⟩
  | work _ _ _ hloop =>
    left
    obtain ⟨_, _, _, _, _, _, _, _, _, _, _, _, rfl, -⟩ := loopStep_eq hloop
    exact ⟨rfl, rfl, rfl⟩

omit [DecidableEq τ] in
/-- While the state is below `Stopped`, no `stop` has got to the list. -/
theorem NotifyOk.of_early (hstop : s.StopOk) (hstate : s.state ≠ .Stopped) (h : s.Kept) :
    s.NotifyOk where
  early _ := h
  swapping t hf := absurd (hstop.published t _ hf trivial id) hstate
  swapped t pc hf hsw := absurd (hstop.published t pc hf hsw.won hsw.not_draining) hstate
  ended hst := absurd hst hstate

omit [DecidableEq τ] in
/-- The `stop` that takes the list is the only one that has got so far. -/
theorem NotifyOk.of_winner (hstop : s.StopOk) {t : Tid τ} {pc : StopPc}
    (hf : s.frame t = some (.stop pc)) (hwon : pc.Won) (hstate : s.state = .Stopped)
    (hswapping : pc = .swapping → s.Kept) (hswapped : pc.Swapped → s.Handed pc.left) :
    s.NotifyOk := by
  have hpc : ∀ u qc, s.frame u = some (.stop qc) → qc.Won → qc = pc := by
    intro u qc hu hq
    obtain rfl := hstop.unique u t qc pc hu hf hq hwon
    rw [hf] at hu
    cases hu
    rfl
  constructor
  · exact fun hne => absurd hstate hne
  · exact fun u hu => hswapping (hpc u _ hu trivial).symm
  · intro u qc hu hq
    obtain rfl := hpc u qc hu hq.won
    exact hswapped hq
  · exact fun _ hnone => absurd hwon (hnone t pc hf)

omit [DecidableEq τ] in
/-- Steps of others keep `NotifyOk`. -/
theorem NotifyOk.of_same (h : s.NotifyOk) (hsame : SameLists s s')
    (hstopped : s'.state = .Stopped ↔ s.state = .Stopped)
    (hframe : ∀ t pc, StopPc.Won pc →
      (s'.frame t = some (.stop pc) ↔ s.frame t = some (.stop pc))) : s'.NotifyOk where
  early hne := (h.early (mt hstopped.mpr hne)).of_same hsame
  swapping t hf := (h.swapping t ((hframe t .swapping trivial).mp hf)).of_same hsame
  swapped t pc hf hsw := (h.swapped t pc ((hframe t pc hsw.won).mp hf) hsw).of_same hsame
  ended hst hnone := by
    refine Handed.of_same (h.ended (hstopped.mp hst) fun t pc hf hwon => ?_) hsame
    exact hnone t pc ((hframe t pc hwon).mpr hf) hwon

/-- The `stop` that executes the notifications takes a step that leaves the lists alone. -/
theorem NotifyOk.move (h : s.NotifyOk) (hstop : s'.StopOk) {pc pc' : StopPc}
    (hf : s.frame t = some (.stop pc)) (hsw : pc.Swapped)
    (hframe : s'.frame = Function.update s.frame t (some (.stop pc'))) (hsw' : pc'.Swapped)
    (hleft : pc'.left = pc.left) (hsame : SameLists s s') (hstate : s'.state = .Stopped) :
    s'.NotifyOk := by
  have hf' : s'.frame t = some (.stop pc') := by rw [hframe, Function.update_self]
  refine .of_winner hstop hf' hsw'.won hstate (fun heq => ?_) fun _ => ?_
  · rw [heq] at hsw'
    exact hsw'.elim
  · rw [hleft]
    exact (h.swapped t pc hf hsw).of_same hsame

theorem NotifyOk.stopStep (h : s.NotifyOk) (hreg : s.RegisterOk) (hstop : s.StopOk)
    (hstop' : s'.StopOk) {pc : StopPc} (hf : s.frame t = some (.stop pc))
    (hs : StopStep s t pc s') : s'.NotifyOk := by
  have hstopped : pc.Swapped → s.state = .Stopped :=
    fun hsw => hstop.published t pc hf hsw.won hsw.not_draining
  cases hs with
  | yield | selfJoin | abort =>
    exact h.of_same ⟨rfl, rfl, rfl⟩ Iff.rfl fun _ _ _ => Iff.rfl
  | win hrun =>
    refine .of_early hstop' (by simp) ?_
    exact (h.early (by simp [hrun])).of_same ⟨rfl, rfl, rfl⟩
  | lose | giveUp =>
    refine h.of_same ⟨rfl, rfl, rfl⟩ Iff.rfl
      (won_stop_iff rfl (fun qc hq => ?_) fun qc hq => ?_)
    · rw [hf] at hq
      cases hq
      simp
    · cases hq <;> simp
  | proceed | halt | range | join | joined | clear | lock =>
    have hdown : s.state ≠ .Stopped := by simp [hstop.draining t _ hf trivial]
    exact .of_early hstop' hdown ((h.early hdown).of_same ⟨rfl, rfl, rfl⟩)
  | publish hdown =>
    refine .of_winner hstop' (Function.update_self ..) trivial rfl (fun _ => ?_) fun hsw => hsw.elim
    exact (h.early (by simp [hdown])).of_same ⟨rfl, rfl, rfl⟩
  | keep hnot => exact absurd (hstop.draining t _ hf trivial) hnot
  | swap =>
    have hkept := h.swapping t hf
    refine .of_winner hstop' (Function.update_self ..) trivial
      (hstop.published t _ hf trivial id) (fun heq => by cases heq) fun _ => ⟨?_, rfl⟩
    exact (congrArg (· ++ s.notifications) hkept.notified).trans hkept.notifications
  | unlock => exact h.move hstop' hf trivial rfl trivial rfl ⟨rfl, rfl, rfl⟩ (hstopped trivial)
  | @notify n ns =>
    have hhanded := h.swapped t _ hf trivial
    refine .of_winner hstop' (Function.update_self ..) trivial (hstopped trivial)
      (fun heq => by cases heq) fun _ => ⟨?_, hhanded.notifications⟩
    exact (List.append_assoc ..).trans hhanded.executed
  | resume | reenter | relock | rerefuse | reunlock =>
    exact h.move hstop' hf trivial rfl trivial rfl ⟨rfl, rfl, rfl⟩ (hstopped trivial)
  | reaccept hstate => exact absurd (hstopped trivial) hstate
  | repush => exact absurd (hstopped trivial) (hreg.pushing t _ (registering_of_frame hf))
  | done =>
    have hhanded : s.Handed [] := h.swapped t _ hf trivial
    have hnone : ∀ u qc, (s.setFrame t none).frame u = some (.stop qc) → ¬ qc.Won := by
      intro u qc hu hq
      rcases update_frame_iff.mp hu with ⟨-, heq⟩ | ⟨hne, hu⟩
      · cases heq
      · exact hne (hstop.unique u t qc _ hu hf hq trivial)
    constructor
    · exact fun hne => absurd (hstopped trivial) hne
    · exact fun u hu => absurd trivial (hnone u _ hu)
    · exact fun u qc hu hq => absurd hq.won (hnone u qc hu)
    · exact fun _ _ => hhanded.of_same ⟨rfl, rfl, rfl⟩

theorem NotifyOk.step (h : s.NotifyOk) (hreg : s.RegisterOk) (hstop : s.StopOk)
    (hs : Step s a s') : s'.NotifyOk := by
  have hlife := lifeStep_of_step hs
  have hstop' := hstop.step hlife
  rcases lists_of_step hs with hsame | ⟨t, pc, _, -, hf, hss⟩ | hpush
  · have hmove : ∀ {t f}, s'.frame = Function.update s.frame t f →
        (∀ pc, s.frame t = some (.stop pc) → ¬ pc.Won) →
        (∀ pc, f = some (.stop pc) → ¬ pc.Won) →
        (s'.state = .Stopped ↔ s.state = .Stopped) → s'.NotifyOk :=
      fun hframe hold hnew hstate => h.of_same hsame hstate (won_stop_iff hframe hold hnew)
    cases hlife with
    | same hlike => exact h.of_same hsame (by rw [hlike.state]) fun t pc _ => hlike.stop t pc
    | callRun hidle =>
      exact hmove rfl (fun pc hq => by simp [hidle] at hq) (fun pc hq => by cases hq) Iff.rfl
    | callStop hidle hframe hstate =>
      refine hmove hframe (fun pc hq => by simp [hidle] at hq) (fun pc hq => ?_) (by rw [hstate])
      cases hq
      simp
    | runWhile hf hrun =>
      have hold : ∀ pc, s.frame _ = some (.stop pc) → ¬ pc.Won := fun pc hq => by
        rw [hf] at hq
        cases hq
      cases hrun with
      | win hready => exact hmove rfl hold (fun pc hq => by cases hq) (by simp [hready])
      | lock | lose | unlock | giveUp | spawn | store | done =>
        exact hmove rfl hold (fun pc hq => by cases hq) Iff.rfl
    | stop hf hss => exact h.stopStep hreg hstop hstop' hf hss
  · exact h.stopStep hreg hstop hstop' hf hss
  · obtain ⟨t, id, ht, hstate, hnotified, hnotifications, hregistered⟩ := hpush
    have hne := hreg.pushing t id ht
    obtain ⟨hnone, hall⟩ := h.early hne
    refine .of_early hstop' (hstate ▸ hne) ⟨hnotified.trans hnone, ?_⟩
    rw [hnotifications, hregistered, hall]

theorem notifyOk_of_reachable (h : (contextSystem cfg τ).Reachable s) : s.NotifyOk := by
  refine h.invariant ?_ fun _ _ _ hr hI _ hs =>
    hI.step (registerOk_of_reachable hr) (stopOk_of_reachable hr) (step_spec hs).2
  rintro _ rfl
  exact .of_early stopOk_initial (by simp [initial]) ⟨rfl, rfl⟩

/-! ### Exactly once -/

/-- Once the `stop` has taken the list, no `stop` gets to it again. -/
theorem not_swapping_of_leads (h : (contextSystem cfg τ).Reachable s) (hst : s.state = .Stopped)
    (hnone : ∀ t, s.frame t ≠ some (.stop .swapping))
    (hl : (contextSystem cfg τ).Leads (fun _ _ => True) s s') (t : Tid τ) :
    s'.frame t ≠ some (.stop .swapping) := by
  have hinv : (contextSystem cfg τ).Reachable s' ∧ s'.state = .Stopped ∧
      ∀ t, s'.frame t ≠ some (.stop .swapping) := by
    refine hl.invariant (I := fun u => (contextSystem cfg τ).Reachable u ∧ u.state = .Stopped ∧
      ∀ t, u.frame t ≠ some (.stop .swapping)) ⟨h, hst, hnone⟩ fun u a u' hI _ hs => ?_
    obtain ⟨hr, hstu, hnoneu⟩ := hI
    refine ⟨hr.step trivial hs, stopped_of_leads hstu (.tail (.refl u) trivial hs), ?_⟩
    intro t ht
    have hmove : ∀ {v f}, u'.frame = Function.update u.frame v f →
        f ≠ some (.stop .swapping) → False := by
      intro v f hframe hf
      rw [hframe, update_frame_iff] at ht
      rcases ht with ⟨-, heq⟩ | ⟨-, ht⟩
      · exact hf heq
      · exact hnoneu t ht
    cases lifeStep_of_step (step_spec hs).2 with
    | same hsame => exact hnoneu t ((hsame.stop t _).mp ht)
    | callRun => exact hmove rfl (by simp)
    | callStop _ hframe => exact hmove hframe (by simp)
    | runWhile _ hrun => cases hrun <;> exact hmove rfl (by simp)
    | @stop v _ _ _ hf hstop =>
      cases hstop with
      | publish hdown | keep hdown =>
        -- it has not made the change to `Stopped`
        have hdr := (stopOk_of_reachable hr).draining v _ hf trivial
        rw [hstu] at hdr
        cases hdr
      | yield | selfJoin | abort => exact hnoneu t ht
      | win | lose | giveUp | proceed | halt | range | join | joined | clear | lock | swap | unlock
      | done | notify | resume | reenter | relock | reaccept | rerefuse | repush | reunlock =>
        exact hmove rfl (by simp)
  exact hinv.2.2 t

omit [DecidableEq τ] in
/-- `notifications_` is empty once the list has been taken. -/
theorem NotifyOk.notifications (h : s.NotifyOk) (hst : s.state = .Stopped)
    (hnone : ∀ t, s.frame t ≠ some (.stop .swapping)) (hstop : s.StopOk) :
    s.notifications = [] := by
  by_cases hwon : ∃ t pc, s.frame t = some (.stop pc) ∧ pc.Won
  · obtain ⟨t, pc, hf, hwon⟩ := hwon
    refine (h.swapped t pc hf ?_).notifications
    have hdr : ¬ pc.Draining := by
      intro hd
      have hdown := hstop.draining t pc hf hd
      rw [hst] at hdown
      cases hdown
    cases pc with
    | setting | lost => exact hwon
    | waiting | halting | joining | clearing | locking | publishing => exact hdr trivial
    | swapping => exact hnone t hf
    | unlocking | notifying | inNotification | registering => trivial
  · refine (h.ended hst fun t pc hf hw => hwon ⟨t, pc, hf, hw⟩).notifications

omit [DecidableEq τ] in
/-- What has been executed is an initial part of what has been registered. -/
theorem NotifyOk.prefix (h : s.NotifyOk) (hstop : s.StopOk) : s.notified <+: s.registered := by
  by_cases hkept : s.Kept
  · rw [hkept.notified]
    exact List.nil_prefix
  · have hst : s.state = .Stopped := by
      by_contra hne
      exact hkept (h.early hne)
    by_cases hwon : ∃ t pc, s.frame t = some (.stop pc) ∧ pc.Swapped
    · obtain ⟨t, pc, hf, hsw⟩ := hwon
      exact ⟨_, (h.swapped t pc hf hsw).executed⟩
    · refine ⟨_, (h.ended hst fun t pc hf hw => ?_).executed⟩
      cases pc with
      | setting | lost => exact hw
      | waiting | halting | joining | clearing | locking | publishing =>
        have hdown := hstop.draining t _ hf trivial
        rw [hst] at hdown
        cases hdown
      | swapping => exact hkept (h.swapping t hf)
      | unlocking | notifying | inNotification | registering => exact hwon ⟨t, _, hf, trivial⟩

/-- The `stop` that shuts down returns when it has executed all notifications. -/
theorem NotifyOk.of_return (h : s.NotifyOk) {pc : StopPc} (hf : s.frame t = some (.stop pc))
    (hwon : pc.Won) (hs : StopStep s t pc s') (hret : s'.frame t = none) :
    s'.notified = s'.registered := by
  cases hs with
  | win | proceed | halt | range | join | joined | clear | lock | publish | keep | swap | unlock
  | notify | resume | reenter | relock | reaccept | rerefuse | repush | reunlock =>
    simp [setFrame] at hret
  | yield | selfJoin | abort =>
    rw [show s.frame t = none from hret] at hf
    cases hf
  | lose => simp [setFrame] at hret
  | giveUp => exact hwon.elim
  | done =>
    have hhanded : s.Handed [] := h.swapped t _ hf trivial
    exact (List.append_nil _).symm.trans hhanded.executed

/-- **Notifications are executed exactly once, in the order of registration.** Thunks are
registered while the state is below `Stopped` only, and a call that does not register its thunk
has found it `Stopped`; no thunk is executed before that, or twice, or out of order; when the `stop`
that shuts down returns, all of them have been executed; and `notifications_` is empty for good once
this `stop` has left its critical section. -/
theorem notifications_exactly_once (h : (contextSystem cfg τ).Reachable s) :
    (s.registered.Nodup ∧ s.notified.Nodup ∧ s.notified <+: s.registered ∧
        (s.notified ≠ [] → s.state = .Stopped) ∧
        ∀ t id, s.registering t = some (id, .unlocking) →
          id ∈ s.registered ∨ s.state = .Stopped) ∧
      (∀ a s', (contextSystem cfg τ).step s a = some s' →
        (s'.registered ≠ s.registered → s.state ≠ .Stopped ∧ s'.state ≠ .Stopped) ∧
        ∀ t, s.ShutsDown t → s'.frame t = none → s'.notified = s'.registered) ∧
      (s.state = .Stopped → (∀ t pc, s.frame t = some (.stop pc) → ¬ pc.Locked) →
        ∀ s', (contextSystem cfg τ).Leads (fun _ _ => True) s s' → s'.notifications = []) := by
  have hnotify := notifyOk_of_reachable h
  have hreg := registerOk_of_reachable h
  have hstop := stopOk_of_reachable h
  have hprefix := hnotify.prefix hstop
  refine ⟨⟨hreg.nodup, hreg.nodup.sublist hprefix.sublist, hprefix, fun hne => ?_,
    fun t id ht => registered_or_stopped h ht⟩, fun a s' hs => ?_, fun hst hout s' hl => ?_⟩
  · by_contra hst
    exact hne (hnotify.early hst).notified
  · have hstep := (step_spec hs).2
    refine ⟨fun hne => ?_, ?_⟩
    · cases registerChange_of_step hstep with
      | same _ heq | call _ _ heq | move _ _ _ heq => exact absurd heq hne
      | push hold =>
        have hst := hreg.pushing _ _ hold
        exact ⟨hst, not_stopped_of_step h hstep hold hst⟩
    · rintro t ⟨pc, hf, hwon⟩ hret
      exact hnotify.of_return hf hwon (stopStep_of_step hstep hf (by simp [hret])) hret
  · have hnone : ∀ t, s.frame t ≠ some (.stop .swapping) := fun t hf => hout t _ hf trivial
    have hr : (contextSystem cfg τ).Reachable s' := h.leads hl
    exact (notifyOk_of_reachable hr).notifications (stopped_of_leads hst hl)
      (not_swapping_of_leads h hst hnone hl) (stopOk_of_reachable hr)

/-- A step in which the notification being executed calls `add_notify_at_stopped`. -/
def reenter (t : Tid τ) : Act τ := .api t ⟨.free, false, true, false⟩

/-- A client registers a thunk, runs the context and stops it; the thunk registers another one. -/
def notifyCalls : List (Act Unit) :=
  .call (.client ()) .addNotifyAtStopped :: List.replicate 4 (go (.client ())) ++ runCalls ++
    stopCalls ++ List.replicate 3 (go (.client ())) ++
    reenter (.client ()) :: List.replicate 4 (go (.client ()))

theorem notifications_exactly_once_notifyCalls : ∃ s s' : State oneThread Unit,
    s.registered = [0] ∧ s.ShutsDown (.client ()) ∧ s'.frame (.client ()) = none ∧
      s'.notified = s'.registered ∧ s.registered.Nodup ∧
      ∀ u, (contextSystem oneThread Unit).Leads (fun _ _ => True) s u → u.notifications = [] := by
  let S := contextSystem oneThread Unit
  let s := (S.exec .initial notifyCalls).get (by decide)
  let s' := (S.step s (go (.client ()))).get (by decide)
  have hs : S.Reachable s := System.reachable_of_exec rfl (Option.some_get _).symm
  obtain ⟨⟨hnodup, -⟩, hstep, hempty⟩ := notifications_exactly_once hs
  have hf : s.frame (.client ()) = some (.stop (.notifying [])) := by decide
  have hdown : s.ShutsDown (.client ()) := ⟨.notifying [], hf, trivial⟩
  refine ⟨s, s', by decide, hdown, by decide, (hstep _ s' (Option.some_get _).symm).2 _ hdown
    (by decide), hnodup, hempty (by decide) fun t pc ht hlocked => ?_⟩
  -- no other `stop` has got so far
  have hwon : pc.Won := by
    by_contra hnot
    rcases StopPc.not_won_iff.mp hnot with rfl | rfl <;> exact hlocked
  obtain rfl := (stopOk_of_reachable hs).unique t _ pc _ ht hf hwon trivial
  rw [hf] at ht
  cases ht
  exact hlocked

end State

end Sgrpc
