import Sgrpc.Context.Join
import Sgrpc.Context.Padlock
import Sgrpc.Context.Posts

/-!
# Attaching servers

`attach_server` checks under `padlock_` that the state is `Ready` and appends its container, and
`run_while` leaves `Ready` under it. So a container is appended in `Ready` only, once, and the
list is what it was when `run_while` left `Ready`; the workers go through it without a lock. The
state itself moves one step forward at a time and never back, so each move is made by one call
(`life_cycle`).
-/

namespace Sgrpc

open Interleaving

namespace State

variable {cfg : Config} {τ : Type*} {s s' : State cfg τ} {a : Act τ} {t : Tid τ}

/-! ### What a step does to `servers_` -/

/-- What the calls of `attach_server` are about is the same in both states. -/
structure SameAttach (s s' : State cfg τ) : Prop where
  servers : s'.servers = s.servers
  attach : ∀ t server pc,
    s'.frame t = some (.attach server pc) ↔ s.frame t = some (.attach server pc)

theorem SameAttach.of_frame_eq (hframe : s'.frame = s.frame) (hservers : s'.servers = s.servers) :
    SameAttach s s' :=
  ⟨hservers, fun _ _ _ => by rw [hframe]⟩

variable [DecidableEq τ]

/-- A thread moves on outside of `attach_server`. -/
theorem SameAttach.of_frame {f : Option Frame} (hframe : s'.frame = Function.update s.frame t f)
    (hold : ∀ server pc, s.frame t ≠ some (.attach server pc))
    (hnew : ∀ server pc, f ≠ some (.attach server pc)) (hservers : s'.servers = s.servers) :
    SameAttach s s' where
  servers := hservers
  attach u server pc := by
    rw [hframe, update_frame_iff]
    constructor
    · rintro (⟨-, hf⟩ | ⟨-, hu⟩)
      · exact absurd hf (hnew server pc)
      · exact hu
    · intro hu
      refine Or.inr ⟨?_, hu⟩
      rintro rfl
      exact hold server pc hu

/-- A step, as `attach_server` sees it. -/
inductive AttachChange (s : State cfg τ) (s' : State cfg τ) : Prop
  | same : SameAttach s s' → AttachChange s s'
  /-- `attach_server` is called for a new container with `n` work queues. -/
  | call {t : Tid τ} {n : ℕ} : s.frame t = none →
      s'.frame = Function.update s.frame t (some (.attach ⟨s.nextId, n⟩ .locking)) →
      s'.servers = s.servers → s'.nextId = s.nextId + 1 → AttachChange s s'
  | attach {t : Tid τ} {server : ServerContainer} {pc : AttachPc} :
      s.frame t = some (.attach server pc) → AttachStep s t server pc s' → AttachChange s s'

private theorem attachChange_begin {c : Call} (h : s.frame t = none) :
    AttachChange s (s.begin t c) := by
  have hold : ∀ server pc, s.frame t ≠ some (.attach server pc) := by
    intro server pc
    rw [h]
    simp
  cases c with
  | post | schedule | postAfter | postRpc | startRpc | runWhile | stop | addNotifyAtStopped =>
    exact .same (.of_frame (t := t) rfl hold (by simp) rfl)
  | postAt now deadline =>
    simp only [begin]
    split <;> exact .same (.of_frame (t := t) rfl hold (by simp) rfl)
  | resume h' =>
    simp only [begin]
    split
    · exact .same (.of_frame (t := t) rfl hold (by simp) rfl)
    · exact .same (.of_frame_eq rfl rfl)
  | makeServer wired =>
    obtain ⟨cq, handler, nextHandler, hwire⟩ := wire_eq s s.nextId 0 wired
    simp only [begin, beginAttach, hwire]
    split
    · exact .same (.of_frame_eq rfl rfl)
    · exact .call h rfl rfl rfl

theorem attachChange_of_step (h : Step s a s') : AttachChange s s' := by
  -- a thread moves on in another member function
  have hother : ∀ {t g f}, s.frame t = some g → (∀ server pc, g ≠ .attach server pc) →
      s'.frame = Function.update s.frame t f → (∀ server pc, f ≠ some (.attach server pc)) →
      s'.servers = s.servers → AttachChange s s' := by
    intro t g f hg hnot hframe hf hservers
    refine .same (.of_frame hframe (fun server pc heq => ?_) hf hservers)
    rw [hg] at heq
    exact hnot server pc (Option.some.inj heq)
  cases h with
  | call hmay => exact attachChange_begin hmay.1
  | @push _ _ _ _ _ pc' _ hf =>
    cases pc' <;> exact hother hf (by simp) rfl (by simp) rfl
  | @post _ _ _ pc answer hf =>
    rcases answer with ⟨slot, _ | _, reenters⟩ <;> rcases pc with - | (_ | _) | i | can <;>
      exact hother hf (by simp) rfl (by simp) rfl
  | runWhile hf hrun => cases hrun <;> exact hother hf (by simp) rfl (by simp) rfl
  | stop hf hstop =>
    cases hstop with
    | yield | selfJoin | abort => exact .same (.of_frame_eq rfl rfl)
    | win | lose | giveUp | proceed | halt | range | join | joined | clear | lock | publish | keep
    | swap | unlock | done | notify | resume | reenter | relock | reaccept | rerefuse | repush
    | reunlock => exact hother hf (by simp) rfl (by simp) rfl
  | attach hf hat => exact .attach hf hat
  | notify hf hnot => cases hnot <;> exact hother hf (by simp) rfl (by simp) rfl
  | @workEnd t h answer hf =>
    obtain ⟨cq, hend⟩ := workEndStep_eq s t h answer.stopped
    rw [hend] at hother ⊢
    exact hother hf (by simp) rfl (by simp) rfl
  | fatal => exact .same (.of_frame_eq rfl rfl)
  | @work w _ _ _ _ hw _ hloop =>
    have hold : ∀ server pc, s.frame (.worker w) ≠ some (.attach server pc) := by
      intro server pc
      rw [hw]
      simp
    have hservers : s'.servers = s.servers := by
      obtain ⟨_, _, _, _, _, _, _, _, _, _, _, _, rfl, -⟩ := loopStep_eq hloop
      rfl
    rcases frame_of_loopStep hloop with hframe | ⟨hframe, -⟩ | ⟨_, _, _, _, _, _, hframe, -⟩
    · exact .same (.of_frame_eq hframe hservers)
    · exact .same (.of_frame hframe hold (by simp) hservers)
    · exact .same (.of_frame hframe hold (by simp) hservers)

/-! ### The calls of `attach_server` -/

/-- A container is appended by one call, once, while the state is `Ready`. -/
structure AttachOk (s : State cfg τ) : Prop where
  fresh : ∀ t server pc, s.frame t = some (.attach server pc) → server.id < s.nextId
  attached : ∀ server ∈ s.servers, server.id < s.nextId
  unique : ∀ t u server server' pc pc', s.frame t = some (.attach server pc) →
    s.frame u = some (.attach server' pc') → server.id = server'.id → t = u
  ready : ∀ t server, s.frame t = some (.attach server .pushing) → s.state = .Ready
  before : ∀ t server pc, s.frame t = some (.attach server pc) → pc ≠ .unlocking true →
    ∀ server' ∈ s.servers, server'.id ≠ server.id
  after : ∀ t server, s.frame t = some (.attach server (.unlocking true)) →
    s.servers.count server = 1

omit [DecidableEq τ] in
theorem attachOk_initial : (initial : State cfg τ).AttachOk where
  fresh _ _ _ hf := by cases hf
  attached _ h := by cases h
  unique _ _ _ _ _ _ hf := by cases hf
  ready _ _ hf := by cases hf
  before _ _ _ hf := by cases hf
  after _ _ hf := by cases hf

/-- The state does not leave `Ready` while an `attach_server` holds `padlock_`. -/
theorem ready_of_step (h : (contextSystem cfg τ).Reachable s) (hs : Step s a s')
    {server : ServerContainer} {pc : AttachPc} (hf : s.frame t = some (.attach server pc))
    (hpc : pc.Locked) (hready : s.state = .Ready) : s'.state = .Ready := by
  cases stateChange_of_step hs with
  | same hstate => rw [hstate, hready]
  | @run u _ _ hu =>
    -- it holds `padlock_`, as the thread that attaches does
    have heq := eq_of_locked h hf hu hpc trivial
    subst heq
    rw [hf] at hu
    cases hu
  | shutDown _ hstate | stop _ hstate =>
    rw [hready] at hstate
    cases hstate

/-- A call of `attach_server` goes from `pc` to `pc'`, or ends, and appends nothing. -/
theorem AttachOk.move (h : s.AttachOk) {server : ServerContainer} {pc : AttachPc}
    {f : Option Frame} (hf : s.frame t = some (.attach server pc))
    (hframe : s'.frame = Function.update s.frame t f)
    (hnew : ∀ server' pc', f = some (.attach server' pc') → server' = server ∧
      pc ≠ .unlocking true ∧ pc' ≠ .unlocking true ∧ (pc' = .pushing → s'.state = .Ready))
    (hready : ∀ u server', s.frame u = some (.attach server' .pushing) → s'.state = .Ready)
    (hservers : s'.servers = s.servers) (hid : s.nextId ≤ s'.nextId) : s'.AttachOk := by
  -- every call in progress was in progress
  have hback : ∀ u server' pc', s'.frame u = some (.attach server' pc') →
      ∃ pc₀, s.frame u = some (.attach server' pc₀) ∧ (pc₀ = pc' ∨ (pc₀ ≠ .unlocking true ∧
        pc' ≠ .unlocking true ∧ (pc' = .pushing → s'.state = .Ready))) := by
    intro u server' pc' hu
    rw [hframe, update_frame_iff] at hu
    rcases hu with ⟨rfl, heq⟩ | ⟨-, hu⟩
    · obtain ⟨rfl, hpc, hpc', hstate⟩ := hnew server' pc' heq
      exact ⟨pc, hf, Or.inr ⟨hpc, hpc', hstate⟩⟩
    · exact ⟨pc', hu, Or.inl rfl⟩
  constructor
  · intro u server' pc' hu
    obtain ⟨pc₀, hu₀, -⟩ := hback u server' pc' hu
    exact (h.fresh u server' pc₀ hu₀).trans_le hid
  · intro server' hmem
    exact (h.attached server' (hservers ▸ hmem)).trans_le hid
  · intro u v server' server'' pc' pc'' hu hv heq
    obtain ⟨pc₀, hu₀, -⟩ := hback u server' pc' hu
    obtain ⟨pc₁, hv₁, -⟩ := hback v server'' pc'' hv
    exact h.unique u v server' server'' pc₀ pc₁ hu₀ hv₁ heq
  · intro u server' hu
    obtain ⟨pc₀, hu₀, rfl | ⟨-, -, hstate⟩⟩ := hback u server' .pushing hu
    · exact hready u server' hu₀
    · exact hstate rfl
  · intro u server' pc' hu hpc'
    rw [hservers]
    obtain ⟨pc₀, hu₀, rfl | ⟨hpc₀, -⟩⟩ := hback u server' pc' hu
    · exact h.before u server' pc₀ hu₀ hpc'
    · exact h.before u server' pc₀ hu₀ hpc₀
  · intro u server' hu
    rw [hservers]
    obtain ⟨pc₀, hu₀, rfl | ⟨-, hnot, -⟩⟩ := hback u server' (.unlocking true) hu
    · exact h.after u server' hu₀
    · exact absurd rfl hnot

/-- A new container is not among those attached, and nobody else attaches it. -/
theorem AttachOk.call (h : s.AttachOk) {n : ℕ}
    (hframe : s'.frame = Function.update s.frame t (some (.attach ⟨s.nextId, n⟩ .locking)))
    (hready : ∀ u server', s.frame u = some (.attach server' .pushing) → s'.state = .Ready)
    (hservers : s'.servers = s.servers) (hid : s'.nextId = s.nextId + 1) : s'.AttachOk := by
  have hback : ∀ {u server pc}, s'.frame u = some (.attach server pc) →
      (u = t ∧ server.id = s.nextId ∧ pc = .locking) ∨ s.frame u = some (.attach server pc) := by
    intro u server pc hu
    rw [hframe, update_frame_iff] at hu
    rcases hu with ⟨rfl, heq⟩ | ⟨-, hu⟩
    · cases heq
      exact Or.inl ⟨rfl, rfl, rfl⟩
    · exact Or.inr hu
  constructor
  · intro u server pc hu
    rcases hback hu with ⟨-, heq, -⟩ | hu
    · omega
    · have hlt := h.fresh u server pc hu
      omega
  · intro server hmem
    have hlt := h.attached server (hservers ▸ hmem)
    omega
  · intro u v server server' pc pc' hu hv heq
    rcases hback hu with ⟨rfl, hnew, -⟩ | hu <;> rcases hback hv with ⟨rfl, hnew', -⟩ | hv
    · rfl
    · have hlt := h.fresh v server' pc' hv
      omega
    · have hlt := h.fresh u server pc hu
      omega
    · exact h.unique u v server server' pc pc' hu hv heq
  · intro u server hu
    rcases hback hu with ⟨-, -, heq⟩ | hu
    · cases heq
    · exact hready u server hu
  · intro u server pc hu hpc server' hmem
    rw [hservers] at hmem
    rcases hback hu with ⟨-, heq, -⟩ | hu
    · have hlt := h.attached server' hmem
      omega
    · exact h.before u server pc hu hpc server' hmem
  · intro u server hu
    rw [hservers]
    rcases hback hu with ⟨-, -, heq⟩ | hu
    · cases heq
    · exact h.after u server hu

/-- The container is appended. -/
theorem AttachOk.push (h : s.AttachOk) {server : ServerContainer}
    (hf : s.frame t = some (.attach server .pushing)) :
    State.AttachOk { s.setFrame t (some (.attach server (.unlocking true))) with
      servers := s.servers ++ [server] } := by
  have hback : ∀ {u server' pc},
      (s.setFrame t (some (.attach server (.unlocking true)))).frame u =
        some (.attach server' pc) →
      (u = t ∧ server' = server ∧ pc = .unlocking true) ∨
        (u ≠ t ∧ s.frame u = some (.attach server' pc)) := by
    intro u server' pc hu
    rcases update_frame_iff.mp hu with ⟨rfl, heq⟩ | ⟨hne, hu⟩
    · cases heq
      exact Or.inl ⟨rfl, rfl, rfl⟩
    · exact Or.inr ⟨hne, hu⟩
  -- the calls of the others have other containers
  have hother : ∀ {u server' pc}, u ≠ t → s.frame u = some (.attach server' pc) →
      server.id ≠ server'.id :=
    fun hne hu heq => hne (h.unique _ _ _ _ _ _ hu hf heq.symm)
  have hnotMem : server ∉ s.servers := fun hmem => h.before t server _ hf (by simp) server hmem rfl
  constructor
  · intro u server' pc hu
    rcases hback hu with ⟨rfl, rfl, -⟩ | ⟨-, hu⟩
    · exact h.fresh u server' _ hf
    · exact h.fresh u server' pc hu
  · intro server' hmem
    rcases List.mem_append.mp hmem with hmem | hnew
    · exact h.attached server' hmem
    · rw [List.mem_singleton.mp hnew]
      exact h.fresh t server _ hf
  · intro u v server' server'' pc pc' hu hv heq
    rcases hback hu with ⟨rfl, rfl, -⟩ | ⟨hne, hu'⟩ <;>
      rcases hback hv with ⟨rfl, rfl, -⟩ | ⟨hne', hv'⟩
    · rfl
    · exact absurd heq (hother hne' hv')
    · exact absurd heq.symm (hother hne hu')
    · exact h.unique u v server' server'' pc pc' hu' hv' heq
  · intro u server' hu
    rcases hback hu with ⟨-, -, heq⟩ | ⟨-, hu⟩
    · cases heq
    · exact h.ready u server' hu
  · intro u server' pc hu hpc server'' hmem
    rcases hback hu with ⟨-, -, heq⟩ | ⟨hne, hu⟩
    · exact absurd heq hpc
    · rcases List.mem_append.mp hmem with hmem | hnew
      · exact h.before u server' pc hu hpc server'' hmem
      · rw [List.mem_singleton.mp hnew]
        exact hother hne hu
  · intro u server' hu
    show (s.servers ++ [server]).count server' = 1
    rw [List.count_append]
    rcases hback hu with ⟨rfl, rfl, -⟩ | ⟨hne, hu⟩
    · rw [List.count_eq_zero_of_not_mem hnotMem, List.count_singleton_self]
    · have hne' : server' ≠ server := fun heq => hother hne hu (heq ▸ rfl)
      rw [h.after u server' hu, List.count_eq_zero_of_not_mem (by simpa using hne')]

theorem AttachOk.step (h : s.AttachOk) (hr : (contextSystem cfg τ).Reachable s)
    (hs : Step s a s') : s'.AttachOk := by
  have hready : ∀ u server, s.frame u = some (.attach server .pushing) → s'.state = .Ready :=
    fun u server hu => ready_of_step hr hs hu trivial (h.ready u server hu)
  have hid := nextId_of_step hs
  cases attachChange_of_step hs with
  | same hsame =>
    obtain ⟨hservers, hframe⟩ := hsame
    constructor
    · exact fun t server pc hf => (h.fresh t server pc ((hframe ..).mp hf)).trans_le hid
    · exact fun server hmem => (h.attached server (hservers ▸ hmem)).trans_le hid
    · exact fun t u server server' pc pc' hf hu =>
        h.unique t u server server' pc pc' ((hframe ..).mp hf) ((hframe ..).mp hu)
    · exact fun t server hf => hready t server ((hframe ..).mp hf)
    · intro t server pc hf
      rw [hservers]
      exact h.before t server pc ((hframe ..).mp hf)
    · intro t server hf
      rw [hservers]
      exact h.after t server ((hframe ..).mp hf)
  | call _ hframe hservers hnext => exact h.call hframe hready hservers hnext
  | attach hf hat =>
    cases hat with
    | lock =>
      refine h.move hf rfl (fun _ _ heq => ?_) hready rfl hid
      cases heq
      simp
    | accept hstate =>
      refine h.move hf rfl (fun _ _ heq => ?_) hready rfl hid
      cases heq
      exact ⟨rfl, by simp, by simp, fun _ => hstate⟩
    | refuse =>
      refine h.move hf rfl (fun _ _ heq => ?_) hready rfl hid
      cases heq
      simp
    | push => exact h.push hf
    | unlock | throw => exact h.move hf rfl (fun _ _ heq => by cases heq) hready rfl hid

theorem attachOk_of_reachable (h : (contextSystem cfg τ).Reachable s) : s.AttachOk := by
  refine h.invariant ?_ fun _ _ _ hr hI _ hs => hI.step hr (step_spec hs).2
  rintro _ rfl
  exact attachOk_initial

/-! ### The life cycle -/

/-- This `run_while` has made the change to `Running`: it starts the workers. -/
def StartsWorkers (s : State cfg τ) (t : Tid τ) : Prop :=
  ∃ pc, s.frame t = some (.runWhile pc) ∧ pc.Won

/-- This `stop` has made the change to `ShuttingDown`: it executes the rest of the body. -/
def ShutsDown (s : State cfg τ) (t : Tid τ) : Prop := ∃ pc, s.frame t = some (.stop pc) ∧ pc.Won

omit [DecidableEq τ] in
theorem StateChange.toInt_le (h : StateChange s a s') :
    s'.state = s.state ∨ s'.state.toInt = s.state.toInt + 1 := by
  cases h with
  | same hstate => exact Or.inl hstate
  | run _ hold hnew | shutDown _ hold hnew | stop _ hold hnew =>
    right
    rw [hold, hnew]
    rfl

/-- The state only moves forward. -/
theorem toInt_le_of_leads (hl : (contextSystem cfg τ).Leads (fun _ _ => True) s s') :
    s.state.toInt ≤ s'.state.toInt := by
  refine hl.invariant (I := fun u => s.state.toInt ≤ u.state.toInt) le_rfl
    fun u a u' hI _ hs => ?_
  rcases (stateChange_of_step (step_spec hs).2).toInt_le with heq | heq
  · rwa [heq]
  · omega

/-- A state that is `Stopped` stays so. -/
theorem stopped_of_leads (hst : s.state = .Stopped)
    (hl : (contextSystem cfg τ).Leads (fun _ _ => True) s s') : s'.state = .Stopped := by
  have hle := toInt_le_of_leads hl
  revert hle
  rw [hst]
  cases s'.state <;> simp [ExecutionState.toInt]

/-- Only the call that makes the change to `Running` starts workers. -/
theorem startsWorkers_of_step (h : Step s a s') (hw : s'.StartsWorkers t) :
    s.StartsWorkers t ∨ (s.state = .Ready ∧ s'.state = .Running) := by
  obtain ⟨pc, hf, hwon⟩ := hw
  -- the thread has moved to `f`, or was in this call before
  have hmove : ∀ {u f}, s'.frame = Function.update s.frame u f →
      (f = some (.runWhile pc) → s.StartsWorkers u) → s.StartsWorkers t := by
    intro u f hframe hnew
    rw [hframe, update_frame_iff] at hf
    rcases hf with ⟨rfl, heq⟩ | ⟨-, hf⟩
    · exact hnew heq
    · exact ⟨pc, hf, hwon⟩
  cases lifeStep_of_step h with
  | same hsame => exact Or.inl ⟨pc, (hsame.run t pc).mp hf, hwon⟩
  | callRun =>
    refine Or.inl (hmove rfl fun heq => ?_)
    cases heq
    exact absurd hwon (by simp)
  | callStop _ hframe => exact Or.inl (hmove hframe fun heq => by cases heq)
  | @runWhile u qc _ _ hu hrun =>
    cases hrun with
    | win hready => exact Or.inr ⟨hready, rfl⟩
    | lock | lose | giveUp =>
      refine Or.inl (hmove rfl fun heq => ?_)
      cases heq <;> exact absurd hwon (by simp)
    | unlock | spawn | store | done => exact Or.inl (hmove rfl fun _ => ⟨_, hu, trivial⟩)
  | stop _ hstop =>
    left
    cases hstop with
    | yield | selfJoin | abort => exact ⟨pc, hf, hwon⟩
    | win | lose | giveUp | proceed | halt | range | join | joined | clear | lock | publish | keep
    | swap | unlock | done | notify | resume | reenter | relock | reaccept | rerefuse | repush
    | reunlock => exact hmove rfl fun heq => by cases heq

/-- Only the call that makes the change to `ShuttingDown` executes the rest of `stop`. -/
theorem shutsDown_of_step (h : Step s a s') (hw : s'.ShutsDown t) :
    s.ShutsDown t ∨ (s.state = .Running ∧ s'.state = .ShuttingDown) := by
  obtain ⟨pc, hf, hwon⟩ := hw
  have hmove : ∀ {u f}, s'.frame = Function.update s.frame u f →
      (f = some (.stop pc) → s.ShutsDown u) → s.ShutsDown t := by
    intro u f hframe hnew
    rw [hframe, update_frame_iff] at hf
    rcases hf with ⟨rfl, heq⟩ | ⟨-, hf⟩
    · exact hnew heq
    · exact ⟨pc, hf, hwon⟩
  cases lifeStep_of_step h with
  | same hsame => exact Or.inl ⟨pc, (hsame.stop t pc).mp hf, hwon⟩
  | callRun => exact Or.inl (hmove rfl fun heq => by cases heq)
  | callStop _ hframe =>
    refine Or.inl (hmove hframe fun heq => ?_)
    cases heq
    exact absurd hwon (by simp)
  | runWhile _ hrun =>
    left
    cases hrun <;> exact hmove rfl fun heq => by cases heq
  | @stop u qc _ _ hu hstop =>
    cases hstop with
    | win hrun => exact Or.inr ⟨hrun, rfl⟩
    | yield | selfJoin | abort => exact Or.inl ⟨pc, hf, hwon⟩
    | lose =>
      refine Or.inl (hmove rfl fun heq => ?_)
      cases heq
      exact absurd hwon id
    | giveUp => exact Or.inl (hmove rfl fun heq => by cases heq)
    | proceed | halt | range | join | joined | clear | lock | publish | keep | swap | unlock
    | done | notify | resume | reenter | relock | reaccept | rerefuse | repush | reunlock =>
      exact Or.inl (hmove rfl fun _ => ⟨_, hu, trivial⟩)

/-- Only that `run_while` creates threads. -/
theorem startsWorkers_of_created (h : Step s a s') (hne : s'.created ≠ s.created) :
    s.StartsWorkers a.thread := by
  cases lifeStep_of_step h with
  | same hsame => exact absurd hsame.created hne
  | callRun => exact absurd rfl hne
  | callStop _ _ _ _ hcreated => exact absurd hcreated hne
  | runWhile hf hrun =>
    cases hrun with
    | spawn => exact ⟨_, hf, trivial⟩
    | lock | win | lose | unlock | giveUp | store | done => exact absurd rfl hne
  | stop _ hstop => cases hstop <;> exact absurd rfl hne

/-- Containers are appended in `Ready` only, by a call for which this is new. -/
theorem AttachOk.servers_of_step (h : s.AttachOk) (hs : Step s a s')
    (hne : s'.servers ≠ s.servers) :
    s.state = .Ready ∧ ∃ server, s.frame a.thread = some (.attach server .pushing) ∧
      server ∉ s.servers ∧ s'.servers = s.servers ++ [server] := by
  have hthread : ∃ server, s.frame a.thread = some (.attach server .pushing) ∧
      s'.servers = s.servers ++ [server] := by
    cases attachChange_of_step hs with
    | same hsame => exact absurd hsame.servers hne
    | call _ _ hservers => exact absurd hservers hne
    | @attach t server pc hf hat =>
      cases hat with
      | push =>
        refine ⟨server, ?_, rfl⟩
        by_contra hnot
        have ht : t ≠ a.thread := by
          rintro rfl
          exact hnot hf
        have hsame := frame_of_step hs ht
        have hmoved : (s.setFrame t (some (.attach server (.unlocking true)))).frame t =
            some (.attach server (.unlocking true)) := Function.update_self ..
        rw [hf] at hsame
        cases hsame.symm.trans hmoved
      | lock | accept | refuse | unlock | throw => exact absurd rfl hne
  obtain ⟨server, hf, hservers⟩ := hthread
  exact ⟨h.ready _ server hf, server, hf,
    fun hmem => h.before _ server _ hf (by simp) server hmem rfl, hservers⟩

/-- A step of a thread that is in `attach_server` is one of it. -/
theorem attachStep_of_step (hs : Step s a s') {server : ServerContainer} {pc : AttachPc}
    (hf : s.frame a.thread = some (.attach server pc)) : AttachStep s a.thread server pc s' := by
  cases hs with
  | @call t _ hmay =>
    have hnone : s.frame t = none := hmay.1
    rw [Act.thread, hnone] at hf
    cases hf
  | @attach t _ _ _ _ hg hat =>
    obtain ⟨rfl, rfl⟩ : server = _ ∧ pc = _ := by
      simpa [Act.thread, hg] using hf.symm
    exact hat
  | push hg | post hg | runWhile hg | stop hg | notify hg | workEnd hg | fatal _ hg
  | work _ hg =>
    cases hg.symm.trans hf

/-- A call of `attach_server` that is over has appended its container once, or has thrown and not
appended it. -/
theorem AttachOk.of_return (h : s.AttachOk) (hs : Step s a s') {server : ServerContainer}
    {pc : AttachPc} (hf : s.frame a.thread = some (.attach server pc))
    (hret : s'.frame a.thread = none) :
    (s'.servers.count server = 1 ∧ s'.threw = s.threw) ∨
      (server ∉ s'.servers ∧ s'.threw = s.threw ++ [server.id]) := by
  have hstep := attachStep_of_step hs hf
  generalize a.thread = t at *
  cases hstep with
  | lock | accept | refuse | push => simp [setFrame] at hret
  | unlock => exact Or.inl ⟨h.after t server hf, rfl⟩
  | throw => exact Or.inr ⟨fun hmem => h.before t server _ hf (by simp) server hmem rfl, rfl⟩

/-- **The life cycle, and the list of servers.** Every step leaves the state or moves it one step
forward, from where it never comes back; the workers are started by the `run_while` that has made
the first of these moves, and the rest of `stop` is executed by the call that has made the second;
`servers_` does not change once the state has left `Ready`; and every `attach_server` appends its
container once, in `Ready`, or throws and does not append it. -/
theorem life_cycle (h : (contextSystem cfg τ).Reachable s)
    (hs : (contextSystem cfg τ).step s a = some s') :
    (s'.state = s.state ∨ (s'.state.toInt = s.state.toInt + 1 ∧
        ∀ u, (contextSystem cfg τ).Leads (fun _ _ => True) s' u → u.state ≠ s.state)) ∧
      ((∀ t, s'.StartsWorkers t →
          s.StartsWorkers t ∨ (s.state = .Ready ∧ s'.state = .Running)) ∧
        (∀ t u, s'.StartsWorkers t → s'.StartsWorkers u → t = u) ∧
        (s'.created ≠ s.created → s.StartsWorkers a.thread)) ∧
      ((∀ t, s'.ShutsDown t → s.ShutsDown t ∨ (s.state = .Running ∧ s'.state = .ShuttingDown)) ∧
        ∀ t u, s'.ShutsDown t → s'.ShutsDown u → t = u) ∧
      (s.state ≠ .Ready → s'.servers = s.servers) ∧
      (s'.servers ≠ s.servers → ∃ server, s.frame a.thread = some (.attach server .pushing) ∧
        server ∉ s.servers ∧ s'.servers = s.servers ++ [server]) ∧
      ∀ server pc, s.frame a.thread = some (.attach server pc) → s'.frame a.thread = none →
        (s'.servers.count server = 1 ∧ s'.threw = s.threw) ∨
          (server ∉ s'.servers ∧ s'.threw = s.threw ++ [server.id]) := by
  have hstep := (step_spec hs).2
  have hattach := attachOk_of_reachable h
  have hr : (contextSystem cfg τ).Reachable s' := h.step trivial hs
  refine ⟨?_, ⟨fun t => startsWorkers_of_step hstep, ?_, startsWorkers_of_created hstep⟩,
    ⟨fun t => shutsDown_of_step hstep, ?_⟩, fun hstate => ?_,
    fun hne => (hattach.servers_of_step hstep hne).2,
    fun server pc hf hret => hattach.of_return hstep hf hret⟩
  · refine (stateChange_of_step hstep).toInt_le.imp id fun hnext => ⟨hnext, fun u hl heq => ?_⟩
    have hle := toInt_le_of_leads hl
    rw [heq] at hle
    omega
  · rintro t u ⟨pc, hf, hwon⟩ ⟨pc', hf', hwon'⟩
    exact (runOk_of_reachable hr).unique t u pc pc' hf hf' hwon hwon'
  · rintro t u ⟨pc, hf, hwon⟩ ⟨pc', hf', hwon'⟩
    exact (stopOk_of_reachable hr).unique t u pc pc' hf hf' hwon hwon'
  · by_contra hne
    exact hstate (hattach.servers_of_step hstep hne).1

/-- A client makes a server with one work queue and one handler, runs the context and makes another
server, which is refused. -/
theorem life_cycle_makeServer : ∃ s s' u u' : State oneThread Unit,
    s'.servers = [⟨0, 1⟩] ∧ ((s'.servers.count ⟨0, 1⟩ = 1 ∧ s'.threw = s.threw) ∨
        (⟨0, 1⟩ ∉ s'.servers ∧ s'.threw = s.threw ++ [0])) ∧
      (u.state ≠ .Ready → u'.servers = u.servers) ∧ u.state = .Running ∧ u'.threw = [1] ∧
      ((u'.servers.count ⟨1, 1⟩ = 1 ∧ u'.threw = u.threw) ∨
        (⟨1, 1⟩ ∉ u'.servers ∧ u'.threw = u.threw ++ [1])) := by
  let S := contextSystem oneThread Unit
  let make : Act Unit := .call (.client ()) (.makeServer [[true]])
  let s := (S.exec .initial (make :: List.replicate 3 (go (.client ())))).get (by decide)
  let s' := (S.step s (go (.client ()))).get (by decide)
  have hs : S.Reachable s := System.reachable_of_exec rfl (Option.some_get _).symm
  have hstep : S.step s (go (.client ())) = some s' := (Option.some_get _).symm
  obtain ⟨-, -, -, -, -, hreturn⟩ := life_cycle hs hstep
  let u := (S.exec s' (runCalls ++ make :: List.replicate 2 (go (.client ())))).get (by decide)
  let u' := (S.step u (go (.client ()))).get (by decide)
  have hu : S.Reachable u := (hs.step trivial hstep).leads
    (System.leads_of_exec (fun _ _ => trivial) (Option.some_get _).symm)
  have hustep : S.step u (go (.client ())) = some u' := (Option.some_get _).symm
  obtain ⟨-, -, -, hfrozen, -, hrefused⟩ := life_cycle hu hustep
  exact ⟨s, s', u, u', by decide, hreturn ⟨0, 1⟩ (.unlocking true) (by decide) (by decide),
    hfrozen, by decide, by decide, hrefused ⟨1, 1⟩ (.unlocking false) (by decide) (by decide)⟩

end State

end Sgrpc
