import Sgrpc.Context.Attach
import Sgrpc.Context.Completion
import Sgrpc.Context.Destructor

/-!
# Quiescence

In runs in which clients stop the context after `run_while` has returned. A `stop` that has lost
the compare-exchange returns without having waited for anything: whenever it returns the shutdown is
over if and only if its compare-exchange has not found the state `ShuttingDown` (`stop_waits_iff`).
Once the state is `Stopped` nothing is executed
any more, and every `post` is refused: that of a thunk by `is_done_`, which the workers have set,
that of an event by the state (`quiescent_at_stopped`).
-/

namespace Sgrpc

open Interleaving
open AtomicTaskStealingQueue (PushStep)

/-- A call of `post`: of a thunk, or of one of the overloads that make an event. -/
inductive PostCall where
  | thunk (f : Thunk)
  | event (kind : PostKind) (id : ℕ)

/-- The number of the call. -/
def PostCall.id : PostCall → ℕ
  | .thunk f => f.id
  | .event _ id => id

/-- The call of `post` that the frame belongs to. -/
def Frame.postCall : Frame → Option PostCall
  | .push f _ => some (.thunk f)
  | .post kind id _ => some (.event kind id)
  | _ => none

/-- The steps that a call of `post` has left, the one with which it returns included, when it is
refused. -/
def Frame.stepsLeft : Frame → ℕ
  | .push _ (.counted _) => 2
  | .push _ _ => 1
  | .post _ _ .counted => 3
  | .post _ _ (.decided _) => 2
  | .post _ _ _ => 1
  | _ => 0

namespace State

variable {cfg : Config} {τ : Type*} {s s' : State cfg τ} {a : Act τ} {t : Tid τ}

/-! ### What `stop` waits for -/

/-- `stop` is called by clients, after `run_while` has returned. -/
def Orderly (s : State cfg τ) (a : Act τ) : Prop := s.StopsAfterRun a ∧ s.ClientStops a

/-- The shutdown is over: all workers have been joined, and no thread is on its way through the
body of `stop` to the change to `Stopped`. -/
structure ShutdownOver (s : State cfg τ) : Prop where
  state : s.state = .Stopped
  joined : s.AllJoined
  nobody : ∀ u pc, s.frame u = some (.stop pc) → ¬ pc.Draining

variable [DecidableEq τ]

theorem rangeComplete_of_orderly (h : (contextSystem cfg τ).ReachableUnder Orderly s) :
    (contextSystem cfg τ).ReachableUnder RangeComplete s :=
  rangeComplete_of_stopsAfterRun (h.mono fun _ _ => And.left)

theorem shutdownOver_of_stopped (h : (contextSystem cfg τ).ReachableUnder Orderly s)
    (hst : s.state = .Stopped) : s.ShutdownOver where
  state := hst
  joined := (joinOk_of_reachable (rangeComplete_of_orderly h)).stopped hst
  nobody u pc hf hd := by
    have hdown := (stopOk_of_reachable h.reachable).draining u pc hf hd
    rw [hst] at hdown
    cases hdown

/-- The call of `stop` that the thread is in returns at the end of this part of a run. -/
def StopReturns (t : Tid τ) (s s' : State cfg τ) : Prop :=
  (contextSystem cfg τ).Leads (fun u a => u.Orderly a ∧ ∃ pc, u.frame t = some (.stop pc)) s s' ∧
    s'.frame t = none

/-- When a `stop` that has made the change to `ShuttingDown` has returned, the state is
`Stopped`. -/
theorem stopped_of_won (h : (contextSystem cfg τ).Reachable s) {pc : StopPc}
    (hf : s.frame t = some (.stop pc)) (hwon : pc.Won) (hret : StopReturns t s s') :
    s'.state = .Stopped := by
  obtain ⟨hl, hnone⟩ := hret
  have hinv : (contextSystem cfg τ).Reachable s' ∧
      ((∃ pc, s'.frame t = some (.stop pc) ∧ pc.Won) ∨ s'.state = .Stopped) := by
    refine hl.invariant (I := fun u => (contextSystem cfg τ).Reachable u ∧
      ((∃ pc, u.frame t = some (.stop pc) ∧ pc.Won) ∨ u.state = .Stopped))
      ⟨h, Or.inl ⟨pc, hf, hwon⟩⟩ fun u a u' hI _ hs => ⟨hI.1.step trivial hs, ?_⟩
    obtain ⟨hr, ⟨qc, hu, hq⟩ | hst⟩ := hI
    · by_cases hsame : u'.frame t = some (.stop qc)
      · exact Or.inl ⟨qc, hsame, hq⟩
      · -- the thread gets on, and is not done before it has published `Stopped`
        cases stopStep_of_step (step_spec hs).2 hu hsame with
        | win | lose | giveUp => exact absurd hq id
        | yield | selfJoin | abort => exact absurd hu hsame
        | done => exact Or.inr ((stopOk_of_reachable hr).published t _ hu trivial id)
        | proceed | halt | range | join | joined | clear | lock | publish | keep | swap | unlock
        | notify | resume | reenter | relock | reaccept | rerefuse | repush | reunlock =>
          exact Or.inl ⟨_, Function.update_self .., trivial⟩
    · exact Or.inr (stopped_of_leads hst (.tail (.refl u) trivial hs))
  rcases hinv.2 with ⟨qc, hu, -⟩ | hst
  · rw [hnone] at hu
    cases hu
  · exact hst

/-- **What `stop` waits for.** A call of `stop` leaves a context behind whose shutdown is over,
whenever it returns, if and only if its compare-exchange has not found the state
`ShuttingDown`. -/
theorem stop_waits_iff (h : (contextSystem cfg τ).ReachableUnder Orderly s) {reply : ApiAnswer}
    {s₁ : State cfg τ} (hf : s.frame t = some (.stop .setting))
    (hs : (contextSystem cfg τ).step s (.api t reply) = some s₁) :
    (∀ s', StopReturns t s₁ s' → s'.ShutdownOver) ↔ s.state ≠ .ShuttingDown := by
  have horderly : s.Orderly (.api t reply) :=
    ⟨fun _ hcall => (by cases hcall), fun _ hcall => by cases hcall⟩
  have h₁ : (contextSystem cfg τ).ReachableUnder Orderly s₁ := h.step horderly hs
  have hspec : s.terminated = false ∧ Step s (.api t reply) s₁ := step_spec hs
  have hgo := hspec.1
  have hstop : StopStep s t .setting s₁ := by
    cases hspec.2 with
    | stop hg hstop =>
      rw [hf] at hg
      cases hg
      exact hstop
    | push hg | post hg | runWhile hg | attach hg | notify hg | workEnd hg =>
      rw [hf] at hg
      cases hg
  have hover : ∀ s', StopReturns t s₁ s' → s'.state = .Stopped → s'.ShutdownOver := by
    intro s' hret
    exact shutdownOver_of_stopped (h₁.leads (System.Leads.mono (fun _ _ hP => hP.1) hret.1))
  cases hstop with
  | win hrun =>
    refine iff_of_true (fun s' hret => hover s' hret ?_) (by simp [hrun])
    exact stopped_of_won h₁.reachable (Function.update_self ..) trivial hret
  | lose hnot =>
    have hready : s.state ≠ .Ready := (returned_of_stop (h.mono fun _ _ => And.left) hf).1
    constructor
    · intro hall hdown
      -- it returns at once
      have hreturn : (contextSystem cfg τ).step (s.setFrame t (some (.stop .lost)))
          (.api t reply) = some ((s.setFrame t (some (.stop .lost))).setFrame t none) := by
        simp [contextSystem, step, apiStep, stopStep, setFrame, hgo]
      have hlost := hall _ ⟨.tail (.refl _) ⟨⟨fun _ hcall => (by cases hcall),
        fun _ hcall => (by cases hcall)⟩, .lost, Function.update_self ..⟩ hreturn,
        Function.update_self ..⟩
      have hst : s.state = .Stopped := hlost.state
      rw [hdown] at hst
      cases hst
    · intro hdown s' hret
      have hst : (s.setFrame t (some (.stop .lost))).state = .Stopped := by
        show s.state = .Stopped
        revert hnot hready hdown
        cases s.state <;> simp
      exact hover s' hret (stopped_of_leads hst (System.Leads.mono (fun _ _ _ => trivial) hret.1))

theorem RunReturned.of_step (h : s.RunReturned)
    (hs : (contextSystem cfg τ).step s a = some s') : s'.RunReturned :=
  h.step (lifeStep_of_step (step_spec hs).2)

omit [DecidableEq τ] in
theorem orderly_of_callsNoStop (s : State cfg τ) (a : Act τ) (h : s.callsNoStop a = true) :
    s.Orderly a := by
  refine ⟨stopsAfterRun_of_callsNoStop s a h, fun w hw => ?_⟩
  simp [callsNoStop, hw] at h

/-- A client runs the context with one thread. -/
def runBy (t : Tid τ) : List (Act τ) := .call t .runWhile :: List.replicate 6 (go t)

/-- One client stops the context, and another one finds the state `ShuttingDown`. -/
theorem exists_stop_without_wait : ¬ ∀ (cfg : Config) (s s' : State cfg Bool) (a : Act Bool)
    (t : Tid Bool) (pc : StopPc), (contextSystem cfg Bool).ReachableUnder Orderly s →
    s.Orderly a → (contextSystem cfg Bool).step s a = some s' →
    s.frame t = some (.stop pc) → s'.frame t = none → s'.ShutdownOver := by
  intro hall
  let S := contextSystem oneThread Bool
  let s₁ := (S.execWhile callsNoStop .initial (runBy (.client false))).get (by decide)
  have hs₁ : S.ReachableUnder Orderly s₁ :=
    System.ReachableUnder.execWhile orderly_of_callsNoStop (.init rfl) (Option.some_get _).symm
  have hidle : ∀ t, s₁.frame t = none := by
    rintro ((_ | _) | w) <;> rfl
  have hret : s₁.RunReturned := by
    refine ⟨by decide, fun t pc hf => ?_⟩
    rw [hidle t] at hf
    cases hf
  let s₂ := (S.step s₁ (.call (.client true) .stop)).get (by decide)
  have hstep₂ : S.step s₁ (.call (.client true) .stop) = some s₂ := (Option.some_get _).symm
  have hs₂ : S.ReachableUnder Orderly s₂ :=
    hs₁.step ⟨fun _ _ => hret, fun _ h => by cases h⟩ hstep₂
  let s₃ := (S.step s₂ (go (.client true))).get (by decide)
  have hstep₃ : S.step s₂ (go (.client true)) = some s₃ := (Option.some_get _).symm
  have hs₃ : S.ReachableUnder Orderly s₃ :=
    hs₂.step (orderly_of_callsNoStop _ _ rfl) hstep₃
  have hret₃ : s₃.RunReturned := (hret.of_step hstep₂).of_step hstep₃
  let s₄ := (S.step s₃ (.call (.client false) .stop)).get (by decide)
  have hs₄ : S.ReachableUnder Orderly s₄ :=
    hs₃.step ⟨fun _ _ => hret₃, fun _ h => by cases h⟩ (Option.some_get _).symm
  let s₅ := (S.step s₄ (go (.client false))).get (by decide)
  have hs₅ : S.ReachableUnder Orderly s₅ :=
    hs₄.step (orderly_of_callsNoStop _ _ rfl) (Option.some_get _).symm
  let s₆ := (S.step s₅ (go (.client false))).get (by decide)
  have hover : s₆.ShutdownOver := hall oneThread s₅ s₆ (go (.client false)) (.client false) .lost
    hs₅ (orderly_of_callsNoStop _ _ rfl) (Option.some_get _).symm (by decide) (by decide)
  exact absurd hover.state (by decide)

/-- A run in which a client stops the context, once. -/
theorem orderly_of_exec {acts acts' : List (Act τ)} {s₁ s₂ : State cfg τ} {c : τ}
    (h₁ : (contextSystem cfg τ).execWhile callsNoStop .initial acts = some s₁)
    (hidle : ∀ t, s₁.frame t = none) (hrun : s₁.state ≠ .Ready)
    (h₂ : (contextSystem cfg τ).step s₁ (.call (.client c) .stop) = some s₂)
    (h : (contextSystem cfg τ).execWhile callsNoStop s₂ acts' = some s) :
    (contextSystem cfg τ).ReachableUnder Orderly s := by
  have hs₁ : (contextSystem cfg τ).ReachableUnder Orderly s₁ :=
    System.ReachableUnder.execWhile orderly_of_callsNoStop (.init rfl) h₁
  have hret : s₁.RunReturned := by
    refine ⟨hrun, fun t pc hf => ?_⟩
    rw [hidle t] at hf
    cases hf
  have hs₂ : (contextSystem cfg τ).ReachableUnder Orderly s₂ :=
    hs₁.step ⟨fun _ _ => hret, fun _ h => by cases h⟩ h₂
  exact System.ReachableUnder.execWhile orderly_of_callsNoStop hs₂ h

/-- The client is in `stop`, and nobody calls it. -/
def staysInStop (s : State cfg Unit) (a : Act Unit) : Bool :=
  s.callsNoStop a && match s.frame (.client ()) with
    | some (.stop _) => true
    | _ => false

theorem of_staysInStop (s : State cfg Unit) (a : Act Unit) (h : s.staysInStop a = true) :
    s.Orderly a ∧ ∃ pc, s.frame (.client ()) = some (.stop pc) := by
  obtain ⟨hcalls, hframe⟩ := Bool.and_eq_true_iff.mp h
  refine ⟨orderly_of_callsNoStop s a hcalls, ?_⟩
  split at hframe
  · next pc heq => exact ⟨pc, heq⟩
  · cases hframe

/-- The client runs the context and stops it, twice: the first `stop` shuts down, and the second
one finds the state `Stopped`. -/
theorem stop_waits_iff_stopCalls : ∃ s s₁ s' u u₁ u' : State oneThread Unit,
    s.state = .Running ∧ StopReturns (.client ()) s₁ s' ∧ s'.ShutdownOver ∧
      u.state = .Stopped ∧ u₁.frame (.client ()) = some (.stop .lost) ∧
      StopReturns (.client ()) u₁ u' ∧ u'.ShutdownOver := by
  let S := contextSystem oneThread Unit
  let s₀ := (S.execWhile callsNoStop .initial runCalls).get (by decide)
  have hidle : ∀ t, s₀.frame t = none := by
    rintro (⟨⟩ | w) <;> rfl
  have hs₀ : S.ReachableUnder Orderly s₀ :=
    System.ReachableUnder.execWhile orderly_of_callsNoStop (.init rfl) (Option.some_get _).symm
  have hret : s₀.RunReturned := by
    refine ⟨by decide, fun t pc hf => ?_⟩
    rw [hidle t] at hf
    cases hf
  let s := (S.step s₀ (.call (.client ()) .stop)).get (by decide)
  have hcall : S.step s₀ (.call (.client ()) .stop) = some s := (Option.some_get _).symm
  have hs : S.ReachableUnder Orderly s := hs₀.step ⟨fun _ _ => hret, fun _ h => by cases h⟩ hcall
  let s₁ := (S.step s (go (.client ()))).get (by decide)
  have hstep : S.step s (go (.client ())) = some s₁ := (Option.some_get _).symm
  let s' := (S.execWhile staysInStop s₁
    (stopCalls.drop 2 ++ List.replicate 3 (go (.client ())))).get (by decide)
  have hl : S.Leads _ s₁ s' := System.leads_of_execWhile of_staysInStop (Option.some_get _).symm
  have hfirst : StopReturns (.client ()) s₁ s' := ⟨hl, by decide⟩
  -- the second call
  have hret' : s'.RunReturned :=
    hl.invariant (I := RunReturned) ((hret.of_step hcall).of_step hstep)
      fun _ _ _ hI _ hs => hI.of_step hs
  have hs' : S.ReachableUnder Orderly s' :=
    (hs.step (orderly_of_callsNoStop s (go (.client ())) rfl) hstep).leads
      (System.Leads.mono (fun _ _ hP => hP.1) hl)
  let u := (S.step s' (.call (.client ()) .stop)).get (by decide +kernel)
  have hu : S.ReachableUnder Orderly u :=
    hs'.step ⟨fun _ _ => hret', fun _ h => by cases h⟩ (Option.some_get _).symm
  let u₁ := (S.step u (go (.client ()))).get (by decide +kernel)
  have hstep' : S.step u (go (.client ())) = some u₁ := (Option.some_get _).symm
  let u' := (S.execWhile staysInStop u₁ [go (.client ())]).get (by decide +kernel)
  have hsecond : StopReturns (.client ()) u₁ u' :=
    ⟨System.leads_of_execWhile of_staysInStop (Option.some_get _).symm, by decide +kernel⟩
  have hst : u.state = .Stopped := by decide +kernel
  have hrun : s.state = .Running := by decide
  exact ⟨s, s₁, s', u, u₁, u', hrun, hfirst,
    (stop_waits_iff hs (by decide) hstep).mpr (by simp [hrun]) s' hfirst, hst, by decide +kernel,
    hsecond, (stop_waits_iff hu (by decide +kernel) hstep').mpr (by simp [hst]) u' hsecond⟩

/-! ### After `Stopped` -/

omit [DecidableEq τ] in
/-- What the call of `post` has returned. -/
def answer (s : State cfg τ) : PostCall → Option Bool
  | .thunk f => s.returned f
  | .event kind id => s.posted (kind.event id)

/-- The task queue has the same contents in both states, and so has every completion queue. -/
structure SameContents (s s' : State cfg τ) : Prop where
  queues : s'.taskQueue.queues = s.taskQueue.queues
  cq : s'.cq = s.cq

/-- Whatever the environment answers, the call `p` that the thread is in takes its next step,
which leaves the queues alone; it returns `false` with this step, or gets closer to that. -/
def Refuses (s : State cfg τ) (t : Tid τ) (f : Frame) (p : PostCall) : Prop :=
  ∀ reply, ∃ s', (contextSystem cfg τ).step s (.api t reply) = some s' ∧ SameContents s s' ∧
    ((s'.frame t = none ∧ s'.answer p = some false) ∨
      ∃ f', s'.frame t = some f' ∧ f'.postCall = some p ∧ f'.stepsLeft < f.stepsLeft)

/-- Once the state is `Stopped`, no worker takes a step. -/
theorem not_work_of_stopped (h : (contextSystem cfg τ).ReachableUnder Orderly s)
    (hst : s.state = .Stopped) (w : ℕ) (reply : WorkAnswer) :
    (contextSystem cfg τ).step s (.work w reply) = none := by
  have hcreated := (runOk_of_reachable h.reachable).created_le
  show s.step (.work w reply) = none
  rcases hs : s.step (.work w reply) with _ | s'
  · rfl
  · cases (step_spec hs).2 with
    | fatal hw _ hfatal =>
      rw [exited_of_stopped (rangeComplete_of_orderly h) hst (hw.trans_le hcreated)] at hfatal
      exact absurd hfatal id
    | work hw _ hpc hloop =>
      rw [exited_of_stopped (rangeComplete_of_orderly h) hst (hw.trans_le hcreated)] at hpc
      subst hpc
      cases hloop

/-- Nothing has been executed, made or accepted since the state `s₀`. -/
structure Silent (s₀ s : State cfg τ) : Prop where
  executed : s.executed = s₀.executed
  completed : s.completed = s₀.completed
  invoked : s.invoked = s₀.invoked
  made : s.made = s₀.made
  nextId : s₀.nextId ≤ s.nextId
  tested : ∀ f : Thunk, s₀.nextId ≤ f.id → s.tested f ≠ some false

/-- Once the state is `Stopped`, no event is made. -/
theorem invoked_of_stopped (h : (contextSystem cfg τ).Reachable s) (hst : s.state = .Stopped)
    (hs : Step s a s') : s'.invoked = s.invoked ∧ s'.made = s.made := by
  cases postChange_of_step hs with
  | same hsame => exact ⟨hsame.invoked, hsame.made⟩
  | call => exact ⟨rfl, rfl⟩
  | @post t kind id pc answer hf =>
    rcases pc with - | (_ | _) | i | can
    · exact ⟨rfl, rfl⟩
    · exact ⟨rfl, rfl⟩
    · exact ⟨rfl, rfl⟩
    · -- it would have found nothing halted
      exact absurd (Or.inl hst) ((haltOk_of_reachable h).deciding t kind id _ hf trivial)
    · exact ⟨rfl, rfl⟩

/-- A closed task queue tells every call so. -/
theorem tested_of_isDone (hdone : s.taskQueue.isDone = true) (hclean : ∀ w, (s.worker w).Clean)
    (hs : Step s a s') {f : Thunk} (hf : s.tested f ≠ some false) : s'.tested f ≠ some false := by
  cases thunkStep_of_step hclean hs with
  | same hsame | collect hsame | execute hsame => rwa [hsame.tested]
  | call _ _ _ htested => rwa [htested]
  | @push t g pc pc' q' ev _ hpush =>
    have htested : (s.afterPush t g q' pc' ev).tested = recordTests s.tested ev := by
      cases pc' <;> rfl
    rw [htested]
    cases hpush with
    | @refuse g' =>
      show Function.update s.tested g' (some true) f ≠ some false
      rcases eq_or_ne f g' with rfl | hne
      · simp
      · rwa [Function.update_of_ne hne]
    | accept hopen =>
      rw [hdone] at hopen
      cases hopen
    | fetch | wrap | busy | store | throw | leave => exact hf

theorem silent_of_leads (h : (contextSystem cfg τ).ReachableUnder Orderly s)
    (hst : s.state = .Stopped) (hl : (contextSystem cfg τ).Leads Orderly s s') :
    (contextSystem cfg τ).ReachableUnder Orderly s' ∧ s'.state = .Stopped ∧ Silent s s' := by
  refine hl.invariant (I := fun u => (contextSystem cfg τ).ReachableUnder Orderly u ∧
    u.state = .Stopped ∧ Silent s u) ⟨h, hst, rfl, rfl, rfl, rfl, le_rfl, fun f hid => ?_⟩
    fun u a u' hI hP hs => ?_
  · rw [((pushesOk_of_reachable h.reachable).fresh f hid).1]
    simp
  · obtain ⟨hr, hstu, hsilent⟩ := hI
    have hstep := (step_spec hs).2
    refine ⟨hr.step hP hs, stopped_of_leads hstu (.tail (.refl u) trivial hs), ?_⟩
    have hdone := isDone_of_stopped (rangeComplete_of_orderly hr) hstu
    obtain ⟨hinvoked, hmade⟩ := invoked_of_stopped hr.reachable hstu hstep
    rcases loop_of_step hstep with hloops | ⟨w, reply, rfl, -⟩
    · exact ⟨hloops.executed.trans hsilent.executed, hloops.completed.trans hsilent.completed,
        hinvoked.trans hsilent.invoked, hmade.trans hsilent.made,
        hsilent.nextId.trans (nextId_of_step hstep), fun f hid =>
          tested_of_isDone hdone (clean_of_reachable hr.reachable) hstep (hsilent.tested f hid)⟩
    · rw [not_work_of_stopped hr hstu w reply] at hs
      cases hs

/-- A call that began after the state was `Stopped` does not return `true`. -/
theorem Silent.answer {s₀ : State cfg τ} (hsilent : Silent s₀ s)
    (h₀ : (contextSystem cfg τ).Reachable s₀) (h : (contextSystem cfg τ).Reachable s)
    {p : PostCall} (hid : s₀.nextId ≤ p.id) : s.answer p ≠ some true := by
  cases p with
  | thunk f =>
    intro htrue
    exact hsilent.tested f hid ((pushesOk_of_reachable h).returned f true htrue)
  | event kind id =>
    intro htrue
    have hmade := ((postsOk_of_reachable h).returned _ true htrue).1.mp rfl
    rw [hsilent.made] at hmade
    exact ((postsOk_of_reachable h₀).fresh kind id hid).2.2 hmade

/-- A call of `post(ThunkType)` that began after the state was `Stopped` is refused by
`is_done_`. -/
theorem refuses_push {s₀ : State cfg τ} (hsilent : Silent s₀ s)
    (h : (contextSystem cfg τ).ReachableUnder Orderly s) (hst : s.state = .Stopped)
    (hterm : s.terminated = false) {f : Thunk} {pc : PushPc Thunk}
    (hf : s.frame t = some (.push f pc)) (hid : s₀.nextId ≤ f.id) :
    s.Refuses t (.push f pc) (.thunk f) := by
  have hdone := isDone_of_stopped (rangeComplete_of_orderly h) hst
  have hsays := ((pushesOk_of_reachable h.reachable).running t f pc hf).2.2
  have htested := hsilent.tested f hid
  intro reply
  cases pc with
  | counted g =>
    refine ⟨s.afterPush t f s.taskQueue (.leaving true (some g)) [.tested g true], ?_, ⟨rfl, rfl⟩,
      Or.inr ⟨.push f (.leaving true (some g)), ?_, rfl, Nat.lt_succ_self 1⟩⟩
    · simp [contextSystem, step, hterm, apiStep, hf, pushStep,
        AtomicTaskStealingQueue.pushStep, hdone, afterPush]
    · simp [afterPush, setFrame]
  | leaving isDone g =>
    have hrefused : isDone = true := by
      cases isDone with
      | true => rfl
      | false => exact absurd hsays htested
    subst hrefused
    refine ⟨s.afterPush t f
      { s.taskQueue with inPush := AtomicTaskStealingQueue.unbump s.taskQueue.inPush }
      (.returned false g) [], ?_, ⟨rfl, rfl⟩, Or.inl ⟨?_, ?_⟩⟩
    · simp [contextSystem, step, hterm, apiStep, hf, pushStep,
        AtomicTaskStealingQueue.pushStep, afterPush]
    · simp [afterPush, setFrame]
    · simp [afterPush, answer]
  | next g | probe g => exact absurd hsays.2 htested
  | idle | returned | threw => exact hsays.elim

/-- A call of another overload that began after the state was `Stopped` is refused by the state. -/
theorem refuses_post {s₀ : State cfg τ} (hsilent : Silent s₀ s)
    (h₀ : (contextSystem cfg τ).Reachable s₀)
    (h : (contextSystem cfg τ).Reachable s) (hst : s.state = .Stopped)
    (hterm : s.terminated = false) {kind : PostKind} {id : ℕ} {pc : PostPc}
    (hf : s.frame t = some (.post kind id pc)) (hid : s₀.nextId ≤ id) :
    s.Refuses t (.post kind id pc) (.event kind id) := by
  have hdeciding : ¬ pc.Deciding :=
    fun hd => (haltOk_of_reachable h).deciding t kind id pc hf hd (Or.inl hst)
  have hstep : ∀ reply : ApiAnswer, (contextSystem cfg τ).step s (.api t reply) =
      some (s.postStep t kind id reply.throws pc) := by
    intro reply
    simp [contextSystem, step, hterm, apiStep, hf]
  intro reply
  refine ⟨_, hstep reply, ?_⟩
  have hpost : s.state.canPost = false := by
    rw [hst]
    rfl
  rcases pc with - | (_ | _) | i | (_ | _)
  · refine ⟨⟨rfl, rfl⟩, Or.inr ⟨.post kind id (.decided false), ?_, rfl, Nat.lt_succ_self 2⟩⟩
    simp [postStep, setFrame, hpost]
  · refine ⟨⟨rfl, rfl⟩, Or.inr ⟨.post kind id (.leaving false), ?_, rfl, Nat.lt_succ_self 1⟩⟩
    simp [postStep, setFrame]
  · exact absurd trivial hdeciding
  · exact absurd trivial hdeciding
  · refine ⟨⟨rfl, rfl⟩, Or.inl ⟨?_, ?_⟩⟩
    · simp [postStep, setFrame]
    · simp [postStep, answer]
  · have hmem := ((postsOk_of_reachable h).running t kind id _ hf).2.2.2.mpr rfl
    rw [hsilent.made] at hmem
    exact absurd hmem ((postsOk_of_reachable h₀).fresh kind id hid).2.2

/-- What a call of `post` begins with. -/
theorem begin_post (s : State cfg τ) (t : Tid τ) {c : Call} (hc : c.IsPost) :
    SameContents s (s.begin t c) ∧ ∃ f p, (s.begin t c).frame t = some f ∧ f.postCall = some p ∧
      p.id = s.nextId ∧ f.stepsLeft ≤ 3 := by
  have hpush : SameContents s (s.beginPush t .user) ∧ ∃ f p,
      (s.beginPush t .user).frame t = some f ∧ f.postCall = some p ∧ p.id = s.nextId ∧
        f.stepsLeft ≤ 3 :=
    ⟨⟨rfl, rfl⟩, _, _, Function.update_self .., rfl, rfl, Nat.le_succ 2⟩
  have hpost : ∀ kind, SameContents s (s.beginPost t kind) ∧ ∃ f p,
      (s.beginPost t kind).frame t = some f ∧ f.postCall = some p ∧ p.id = s.nextId ∧
        f.stepsLeft ≤ 3 :=
    fun kind => ⟨⟨rfl, rfl⟩, _, _, Function.update_self .., rfl, rfl, le_rfl⟩
  cases c with
  | post => exact hpush
  | postAt now deadline =>
    simp only [begin]
    split
    · exact hpush
    · exact hpost _
  | postAfter delta => exact hpost _
  | postRpc | startRpc => exact hpost _
  | schedule | runWhile | stop | makeServer | addNotifyAtStopped | resume => exact absurd hc id

/-- **Quiescence after `Stopped`.** In every run in which clients stop the context after
`run_while` has returned, once the state is `Stopped`: it stays so; no thunk and no `complete` is
executed, no worker takes a step; and every call of `post` that begins afterwards leaves the task
queue and the completion queues alone and returns `false` with its third step at the latest. -/
theorem quiescent_at_stopped (h : (contextSystem cfg τ).ReachableUnder Orderly s)
    (hst : s.state = .Stopped) (hl : (contextSystem cfg τ).Leads Orderly s s') :
    s'.state = .Stopped ∧
      (s'.executed = s.executed ∧ s'.completed = s.completed ∧
        ∀ w reply, (contextSystem cfg τ).step s' (.work w reply) = none) ∧
      (∀ t c, c.IsPost → SameContents s' (s'.begin t c) ∧ ∃ f p,
        (s'.begin t c).frame t = some f ∧ f.postCall = some p ∧ s.nextId ≤ p.id ∧
          f.stepsLeft ≤ 3) ∧
      (∀ t f p, s'.frame t = some f → f.postCall = some p → s.nextId ≤ p.id →
        s'.terminated = false → s'.Refuses t f p) ∧
      ∀ p, s.nextId ≤ p.id → s'.answer p ≠ some true := by
  obtain ⟨hr, hst', hsilent⟩ := silent_of_leads h hst hl
  refine ⟨hst', ⟨hsilent.executed, hsilent.completed, not_work_of_stopped hr hst'⟩,
    fun t c hc => ?_, fun t f p hf hp hid hterm => ?_,
    fun p hid => hsilent.answer h.reachable hr.reachable hid⟩
  · obtain ⟨hsame, f, p, hf, hp, hid, hleft⟩ := begin_post s' t hc
    exact ⟨hsame, f, p, hf, hp, hid ▸ hsilent.nextId, hleft⟩
  · cases f with
    | push g pc =>
      cases hp
      exact refuses_push hsilent hr hst' hterm hf hid
    | post kind id pc =>
      cases hp
      exact refuses_post hsilent h.reachable hr.reachable hst' hterm hf hid
    | runWhile | stop | attach | notify | work => cases hp

/-- The client runs the context, stops it, and posts a thunk. -/
theorem quiescent_at_stopped_stopCalls : ∃ s s' : State oneThread Unit,
    s.state = .Stopped ∧ s'.state = .Stopped ∧ s'.executed = s.executed ∧
      s'.Refuses (.client ()) (.push ⟨0, .user⟩ (.counted ⟨0, .user⟩)) (.thunk ⟨0, .user⟩) := by
  let S := contextSystem oneThread Unit
  let s₁ := (S.execWhile callsNoStop .initial runCalls).get (by decide)
  have hidle : ∀ t, s₁.frame t = none := by
    rintro (⟨⟩ | w) <;> rfl
  let s₂ := (S.step s₁ (.call (.client ()) .stop)).get (by decide)
  let s := (S.execWhile callsNoStop s₂ (stopCalls.tail ++ List.replicate 3 (go (.client ())))).get
    (by decide)
  have hs : S.ReachableUnder Orderly s :=
    orderly_of_exec (Option.some_get _).symm hidle (by decide) (Option.some_get _).symm
      (Option.some_get _).symm
  let s' := (S.step s (.call (.client ()) .post)).get (by decide)
  have hstep : S.step s (.call (.client ()) .post) = some s' := (Option.some_get _).symm
  have horderly : s.Orderly (.call (.client ()) .post) := orderly_of_callsNoStop s _ rfl
  have hst : s.state = .Stopped := by decide
  obtain ⟨hst', ⟨hexecuted, -⟩, -, hrefuses, -⟩ :=
    quiescent_at_stopped hs hst (.tail (.refl s) horderly hstep)
  exact ⟨s, s', hst, hst', hexecuted,
    hrefuses (.client ()) _ _ (by decide) rfl (by decide) (by decide)⟩

end State

end Sgrpc
