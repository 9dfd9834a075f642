import Sgrpc.Context.Cover

/-!
# What the destructor leaves behind

`~ExecutionContext` calls `stop`, which shuts down and drains a context that is `Running`, and does
nothing to one that is `Ready`; `post` accepts in both. One client calls member functions in some
order and destroys the context. What it has posted is executed by then if it has called `run_while`
somewhere, and is abandoned if it has not (`drains_iff`).
-/

namespace Sgrpc

open Interleaving

/-- One of the overloads of `post`. -/
def Call.IsPost : Call → Prop
  | .post | .postAt _ _ | .postAfter _ | .postRpc | .startRpc => True
  | _ => False

/-- The client posts, runs or stops. -/
def Call.Plain (c : Call) : Prop := c.IsPost ∨ c = .runWhile ∨ c = .stop

instance : DecidablePred Call.IsPost := fun c => by
  unfold Call.IsPost
  split <;> infer_instance

instance : DecidablePred Call.Plain := fun _ => inferInstanceAs (Decidable (_ ∨ _))

/-- The calls of the client. -/
def clientCalls : Act Unit → List Call
  | .call (.client _) c => [c]
  | _ => []

/-- A context used by one client, with the history of the calls it has made. -/
def clientSystem (cfg : Config) : System (List Call × State cfg Unit) (Act Unit) :=
  (contextSystem cfg Unit).logged clientCalls

namespace State

variable {cfg : Config} {s s' : State cfg Unit} {p : List Call × State cfg Unit} {a : Act Unit}
  {calls : List Call}

/-- The client posts, with arguments that do not throw, runs and stops; the code that the workers
execute does not stop the context. -/
def Polite (p : List Call × State cfg Unit) (a : Act Unit) : Prop :=
  p.2.ClientStops a ∧
    match a with
    | .call (.client _) c => c.Plain
    | .api (.client _) answer => answer.throws = false
    | _ => True

/-- The client makes these calls and then destroys the context: when the `stop` of the destructor
has returned, every thunk whose `post` has returned `true` has been executed exactly once, and so
every event has been completed. -/
def Drains (cfg : Config) (history : List Call) : Prop :=
  ∀ s : State cfg Unit, (clientSystem cfg).ReachableUnder Polite (history ++ [.stop], s) →
    s.frame (.client ()) = none →
    (∀ f, s.returned f = some true → s.executed.count f = 1) ∧
      ∀ e, s.posted e = some true → s.completed.count e = 1

theorem init_client : (clientSystem cfg).ReachableUnder Polite ([], .initial) :=
  .init ⟨rfl, rfl⟩

/-- The run, without the history. -/
theorem clientStops_of_polite (h : (clientSystem cfg).ReachableUnder Polite p) :
    (contextSystem cfg Unit).ReachableUnder ClientStops p.2 :=
  System.ReachableUnder.of_logged h fun _ _ _ hP => hP.1

/-! ### Running the context -/

/-- A worker is not created before the state is `Running`, so it does not make that change. -/
theorem not_ready_of_worker (h : (contextSystem cfg Unit).Reachable s) {w : ℕ} {f : Frame}
    (hf : s.frame (.worker w) = some f) : s.state ≠ .Ready := by
  intro hready
  have hw := (calling_of_reachable h hf).1
  have hzero := ((runOk_of_reachable h).ready hready).1
  omega

theorem not_won_of_worker (h : (contextSystem cfg Unit).Reachable s) {w : ℕ} {pc : RunPc}
    (hf : s.frame (.worker w) = some (.runWhile pc)) : ¬ pc.Won := by
  have hinv : ∀ w pc, s.frame (.worker w) = some (.runWhile pc) → ¬ pc.Won := by
    refine h.invariant (I := fun u => ∀ w pc, u.frame (.worker w) = some (.runWhile pc) → ¬ pc.Won)
      ?_ fun u a u' hr hI _ hs w pc hf => ?_
    · rintro _ rfl w pc hf
      cases hf
    · -- the frame of the worker is old, or the one its thread has moved to
      have hmove : ∀ {t fr}, u'.frame = Function.update u.frame t fr →
          (∀ qc, .worker w = t → fr = some (.runWhile qc) → ¬ qc.Won) → ¬ pc.Won := by
        intro t fr hframe hnew
        rw [hframe, update_frame_iff] at hf
        rcases hf with ⟨heq, hfr⟩ | ⟨-, hf⟩
        · exact hnew pc heq hfr
        · exact hI w pc hf
      cases lifeStep_of_step (step_spec hs).2 with
      | same hsame => exact hI w pc ((hsame.run _ _).mp hf)
      | callRun =>
        refine hmove rfl fun qc _ hq => ?_
        cases hq
        simp
      | callStop _ hframe => exact hmove hframe fun qc _ hq => by cases hq
      | @runWhile t qc _ _ ht hrun =>
        cases hrun with
        | win hready =>
          refine hmove rfl fun _ heq _ => ?_
          subst heq
          exact absurd hready (not_ready_of_worker hr ht)
        | lock | lose | giveUp =>
          refine hmove rfl fun qc _ hq => ?_
          cases hq <;> simp
        | unlock | spawn | store | done =>
          refine hmove rfl fun _ heq _ => ?_
          subst heq
          exact absurd trivial (hI w _ ht)
      | stop _ hstop =>
        cases hstop with
        | yield | selfJoin | abort => exact hI w pc hf
        | win | lose | giveUp | proceed | halt | range | join | joined | clear | lock | publish
        | keep | swap | unlock | done | notify
        | resume | reenter | relock | reaccept | rerefuse | repush | reunlock =>
          exact hmove rfl fun qc _ hq => by cases hq
  exact hinv w pc hf

/-- One client stops the context only after its `run_while` has returned. -/
theorem oneStopper_of_clientStops (h : (contextSystem cfg Unit).ReachableUnder ClientStops s) :
    (contextSystem cfg Unit).ReachableUnder OneStopper s := by
  refine h.strengthen (I := fun u => (contextSystem cfg Unit).ReachableUnder ClientStops u)
    (fun _ hu => hu) fun u a hu hP => ⟨?_, hP⟩
  cases a with
  | api t answer =>
    intro k hf _
    have hret : u.RunReturned := by
      have hdown := (stopOk_of_reachable hu.reachable).draining t _ hf trivial
      refine ⟨by simp [hdown], fun v pc hv => ?_⟩
      rcases v with ⟨⟩ | w
      · rcases t with ⟨⟩ | w
        · rw [hf] at hv
          cases hv
        · exact absurd hf (not_stop_of_clientStops hu w _)
      · exact not_won_of_worker hu.reachable hv
    have hfresh := fresh_of_early hu.reachable (Or.inr (Or.inr ⟨t, _, hf, trivial⟩))
    have hcreated := (runOk_of_reachable hu.reachable).created_of_returned hret
    rw [hfresh.filled hret.2, List.length_range, hcreated]
  | call | work => trivial

/-- The state never becomes `Ready` again. -/
theorem StateChange.not_ready (h : StateChange s a s') (hnot : s.state ≠ .Ready) :
    s'.state ≠ .Ready := by
  cases h with
  | same hstate => rwa [hstate]
  | run _ _ hstate | shutDown _ _ hstate | stop _ _ hstate => simp [hstate]

/-- Only a `run_while` of the client makes the change to `Running`. -/
theorem StateChange.running (h : StateChange s a s') (hr : (contextSystem cfg Unit).Reachable s)
    (hrun : s'.state = .Running) :
    s.state = .Running ∨ s.frame (.client ()) = some (.runWhile .setting) := by
  cases h with
  | same hstate => exact Or.inl (hstate ▸ hrun)
  | @run t _ _ hf hready =>
    rcases t with ⟨⟩ | w
    · exact Or.inr hf
    · exact absurd hready (not_ready_of_worker hr hf)
  | shutDown _ _ hstate | stop _ _ hstate =>
    rw [hstate] at hrun
    cases hrun

/-- What the history says about the state: the context has been run, or is about to be, and the
last `stop` has found it running, or not, by the time it returns. -/
structure HistoryOk (calls : List Call) (s : State cfg Unit) : Prop where
  run : .runWhile ∈ calls → s.state ≠ .Ready ∨
    s.frame (.client ()) = some (.runWhile .locking) ∨
      s.frame (.client ()) = some (.runWhile .setting)
  stop : calls.getLast? = some .stop → s.frame (.client ()) = some (.stop .setting) ∨
    (s.state ≠ .Running ∧ ∀ pc, s.frame (.client ()) ≠ some (.runWhile pc))

/-- A step of another thread. -/
theorem HistoryOk.of_other (h : HistoryOk calls s) (hr : (contextSystem cfg Unit).Reachable s)
    (hs : Step s a s') (ha : .client () ≠ a.thread) : HistoryOk calls s' := by
  have hframe := frame_of_step hs ha
  constructor
  · intro hmem
    rw [hframe]
    exact (h.run hmem).imp (stateChange_of_step hs).not_ready id
  · intro hlast
    rw [hframe]
    refine (h.stop hlast).imp id fun hnot => ⟨fun hrun => ?_, hnot.2⟩
    rcases (stateChange_of_step hs).running hr hrun with hold | hf
    · exact hnot.1 hold
    · exact hnot.2 _ hf

/-- The client calls a member function. -/
theorem HistoryOk.call (h : HistoryOk calls s) {c : Call} (hmay : s.MayCall (.client ())) :
    HistoryOk (calls ++ [c]) (s.begin (.client ()) c) where
  run hmem := by
    rw [List.mem_append, List.mem_singleton] at hmem
    rcases hmem with hmem | rfl
    · refine Or.inl ((stateChange_of_step (.call hmay)).not_ready ?_)
      simpa [hmay.1] using h.run hmem
    · exact Or.inr (Or.inl (by simp [begin, setFrame]))
  stop hlast := by
    rw [List.getLast?_concat] at hlast
    cases hlast
    exact Or.inl (by simp [begin, setFrame])

/-- A step of the client inside `run_while`. -/
theorem HistoryOk.runStep (h : HistoryOk calls s) {pc : RunPc}
    (hf : s.frame (.client ()) = some (.runWhile pc)) (hs : RunStep s (.client ()) pc s') :
    HistoryOk calls s' where
  run hmem := by
    have hold := h.run hmem
    cases hs with
    | lock => exact Or.inr (Or.inr (by simp [setFrame]))
    | win => exact Or.inl (by simp)
    | lose hstate => exact Or.inl hstate
    | unlock | giveUp | spawn | store | done =>
      have hstate : s.state ≠ .Ready := by simpa [hf] using hold
      exact Or.inl hstate
  stop hlast := by
    rcases h.stop hlast with heq | ⟨-, hnot⟩
    · rw [hf] at heq
      cases heq
    · exact absurd hf (hnot pc)

/-- A step of the client inside `stop`. -/
theorem HistoryOk.stopStep (h : HistoryOk calls s) {pc : StopPc} (answer : ApiAnswer)
    (hf : s.frame (.client ()) = some (.stop pc)) (hs : StopStep s (.client ()) pc s') :
    HistoryOk calls s' where
  run hmem := by
    refine Or.inl ((stateChange_of_step (.stop (a := answer) hf hs)).not_ready ?_)
    simpa [hf] using h.run hmem
  stop hlast := by
    have hold := h.stop hlast
    cases hs with
    | win => exact Or.inr ⟨by simp, fun pc hpc => by simp [setFrame] at hpc⟩
    | lose hstate => exact Or.inr ⟨hstate, fun pc hpc => by simp [setFrame] at hpc⟩
    | publish => exact Or.inr ⟨by simp, fun pc hpc => by simp [setFrame] at hpc⟩
    | yield | selfJoin | abort => exact hold
    | giveUp | proceed | halt | range | join | joined | clear | lock | keep | swap | unlock | done
    | notify | resume | reenter | relock | reaccept | rerefuse | repush | reunlock =>
      have hstate : s.state ≠ .Running := by simpa [hf] using hold
      exact Or.inr ⟨hstate, fun pc hpc => by simp [setFrame] at hpc⟩

theorem HistoryOk.step (h : HistoryOk calls s) (hr : (contextSystem cfg Unit).Reachable s)
    (hs : Step s a s') : HistoryOk (calls ++ clientCalls a) s' := by
  rcases a with ⟨⟨⟩ | w, c⟩ | ⟨⟨⟩ | w, answer⟩ | ⟨w, answer⟩
  · cases hs with
    | call hmay => exact h.call hmay
  · simpa [clientCalls] using h.of_other hr hs (by simp [Act.thread])
  · show HistoryOk (calls ++ []) s'
    rw [List.append_nil]
    cases lifeStep_of_step hs with
    | same hsame =>
      constructor
      · intro hmem
        rw [hsame.state, hsame.run, hsame.run]
        exact h.run hmem
      · intro hlast
        simp only [hsame.state, hsame.run, hsame.stop, ne_eq]
        exact h.stop hlast
    | callStop _ _ _ _ _ _ hcaller => cases hcaller
    | runWhile hf hrun => exact h.runStep hf hrun
    | stop hf hstop => exact h.stopStep answer hf hstop
  · simpa [clientCalls] using h.of_other hr hs (by simp [Act.thread])
  · simpa [clientCalls] using h.of_other hr hs (by simp [Act.thread])

theorem historyOk_of_reachable (h : (clientSystem cfg).ReachableUnder Polite p) :
    HistoryOk p.1 p.2 := by
  refine h.invariant (I := fun q => HistoryOk q.1 q.2) ?_ fun q a q' hr hI _ hs => ?_
  · rintro ⟨calls, s⟩ ⟨rfl, rfl⟩
    exact ⟨fun hmem => (by cases hmem), fun hlast => (by cases hlast)⟩
  · obtain ⟨hstep, hcalls⟩ := System.step_logged_iff.mp hs
    rw [hcalls]
    exact hI.step (clientStops_of_polite hr).reachable (step_spec hstep).2

/-- When the last `stop` of a client that has run the context returns, the state is `Stopped`. -/
theorem stopped_of_history
    (h : (clientSystem cfg).ReachableUnder Polite (calls ++ [.stop], s)) (hrun : .runWhile ∈ calls)
    (hidle : s.frame (.client ()) = none) : s.state = .Stopped := by
  have hhist := historyOk_of_reachable h
  have hclient := clientStops_of_polite h
  have hready : s.state ≠ .Ready := by
    simpa [hidle] using hhist.run (List.mem_append_left _ hrun)
  have hrunning : s.state ≠ .Running := by
    simpa [hidle] using hhist.stop List.getLast?_concat
  have hdown : s.state ≠ .ShuttingDown := by
    intro hdown
    obtain ⟨t, pc, hf, -⟩ := (stopOk_of_reachable hclient.reachable).down hdown
    rcases t with ⟨⟩ | w
    · rw [hidle] at hf
      cases hf
    · exact not_stop_of_clientStops hclient w pc hf
  cases hst : s.state with
  | Ready => exact absurd hst hready
  | Running => exact absurd hst hrunning
  | ShuttingDown => exact absurd hst hdown
  | Stopped => rfl

/-- A client that runs the context leaves nothing behind. -/
theorem drains_of_run (hrun : .runWhile ∈ calls) : Drains cfg calls := by
  intro s h hidle
  have hst := stopped_of_history h hrun hidle
  have hone := oneStopper_of_clientStops (clientStops_of_polite h)
  refine ⟨fun f hf => executed_of_stopped hone hst hf, fun e he => ?_⟩
  have hmade : e ∈ s.made := ((postsOk_of_reachable hone.reachable).returned e true he).1.mp rfl
  exact completed_of_stopped (hone.mono fun _ _ hP => hP.1) hst hmade

/-! ### A client that only stops the context -/

/-- Nothing has happened. -/
structure Untouched (s : State cfg Unit) : Prop where
  state : s.state = .Ready
  returned : ∀ f, s.returned f = none
  posted : ∀ e, s.posted e = none
  client : ∀ f, s.frame (.client ()) = some f → f = .stop .setting ∨ f = .stop .lost

theorem Untouched.step (h : s.Untouched) (hr : (contextSystem cfg Unit).Reachable s)
    (hcalls : ∀ c ∈ clientCalls a, c = .stop) (hs : Step s a s') : s'.Untouched := by
  have hcreated : s.created = 0 := ((runOk_of_reachable hr).ready h.state).1
  -- there is no worker
  have hworker : ∀ w f, s.frame (.worker w) ≠ some f := by
    intro w f hf
    have hw := (calling_of_reachable hr hf).1
    omega
  have hclient : ∀ {t f}, s.frame t = some f →
      t = .client () ∧ (f = .stop .setting ∨ f = .stop .lost) := by
    intro t f hf
    rcases t with ⟨⟩ | w
    · exact ⟨rfl, h.client f hf⟩
    · exact absurd hf (hworker w f)
  cases hs with
  | @call t c hmay =>
    rcases t with ⟨⟩ | w
    · obtain rfl : c = .stop := hcalls c (List.mem_singleton.mpr rfl)
      refine ⟨h.state, h.returned, h.posted, fun f hf => Or.inl ?_⟩
      simpa [begin, setFrame] using hf.symm
    · have hw : w < s.created := hmay.2.1
      omega
  | push hf | post hf | runWhile hf | attach hf | notify hf | workEnd hf =>
    rcases (hclient hf).2 with heq | heq <;> cases heq
  | stop hf hstop =>
    obtain ⟨rfl, heq | heq⟩ := hclient hf
    · cases heq
      cases hstop with
      | win hrun =>
        rw [h.state] at hrun
        cases hrun
      | lose =>
        refine ⟨h.state, h.returned, h.posted, fun f hf => Or.inr ?_⟩
        simpa [setFrame] using hf.symm
    · cases heq
      cases hstop with
      | giveUp => exact ⟨h.state, h.returned, h.posted, fun f hf => by simp [setFrame] at hf⟩
  | fatal hw | work hw => omega

/-- A client that has nothing but stopped the context leaves nothing behind. -/
theorem drains_of_stops (hcalls : ∀ c ∈ calls, c = .stop) : Drains cfg calls := by
  intro s h _
  have hinv : (∀ c ∈ calls ++ [.stop], c = .stop) → s.Untouched := by
    refine h.invariant (I := fun q => (∀ c ∈ q.1, c = .stop) → q.2.Untouched) ?_
      fun q a q' hr hI _ hs hq => ?_
    · rintro ⟨_, _⟩ ⟨-, rfl⟩ _
      exact ⟨rfl, fun _ => rfl, fun _ => rfl, fun f hf => by cases hf⟩
    · obtain ⟨hstep, heq⟩ := System.step_logged_iff.mp hs
      rw [heq] at hq
      have hold := hI fun c hc => hq c (List.mem_append_left _ hc)
      exact hold.step (clientStops_of_polite hr).reachable
        (fun c hc => hq c (List.mem_append_right _ hc)) (step_spec hstep).2
  have huntouched : s.Untouched := hinv fun c hc => by
    rcases List.mem_append.mp hc with hc | hc
    · exact hcalls c hc
    · exact List.mem_singleton.mp hc
  refine ⟨fun f hf => ?_, fun e he => ?_⟩
  · rw [huntouched.returned f] at hf
    cases hf
  · rw [huntouched.posted e] at he
    cases he

/-! ### A client that posts and does not run the context -/

/-- The context has never been run. -/
structure NeverRun (s : State cfg Unit) : Prop where
  state : s.state = .Ready
  terminated : s.terminated = false
  isDone : s.taskQueue.isDone = false
  executed : s.executed = []
  completed : s.completed = []

/-- Some `post` has returned `true`. -/
def HasAccepted (s : State cfg Unit) : Prop :=
  (∃ f, s.returned f = some true) ∨ ∃ e, s.posted e = some true

/-- The client can be here after these calls, outside of the context, which has never been run. -/
def Rests (calls : List Call) (s : State cfg Unit) : Prop :=
  (clientSystem cfg).ReachableUnder Polite (calls, s) ∧ s.NeverRun ∧ s.frame (.client ()) = none

theorem Rests.call (h : Rests calls s) {c : Call} (hc : c.Plain) :
    (clientSystem cfg).ReachableUnder Polite (calls ++ [c], s.begin (.client ()) c) := by
  have hmay : s.MayCall (.client ()) := ⟨h.2.2, trivial⟩
  have hstep : (contextSystem cfg Unit).step s (.call (.client ()) c) =
      some (s.begin (.client ()) c) := by
    simp [contextSystem, step, h.2.1.terminated, hmay]
  refine h.1.step ⟨fun w hw => ?_, hc⟩ (System.step_logged_iff.mpr ⟨hstep, rfl⟩)
  cases c <;> cases hw

/-- A step of the client in which nothing fails. -/
theorem polite_go (h : (clientSystem cfg).ReachableUnder Polite (calls, s)) (hnever : s.NeverRun)
    (hs : s.apiStep (.client ()) ⟨.free, false, false, false⟩ = some s') :
    (clientSystem cfg).ReachableUnder Polite (calls, s') := by
  have hstep : (contextSystem cfg Unit).step s (go (.client ())) = some s' := by
    simpa [contextSystem, step, go, hnever.terminated] using hs
  exact h.step ⟨fun w hw => (by cases hw), rfl⟩
    (System.step_logged_iff.mpr ⟨hstep, (List.append_nil _).symm⟩)

/-- A step of `push` that does not throw. -/
theorem polite_push (h : (clientSystem cfg).ReachableUnder Polite (calls, s)) (hnever : s.NeverRun)
    (f : Thunk) {pc pc' : PushPc Thunk} {q' : AtomicTaskStealingQueue Thunk cfg.nTaskQueues}
    {ev : List (QueueEvent Thunk)} (hf : s.frame (.client ()) = some (.push f pc))
    (hq : s.taskQueue.pushStep .free pc = some (q', pc', ev)) (hthrew : ∀ g, pc' ≠ .threw g) :
    (clientSystem cfg).ReachableUnder Polite (calls, s.afterPush (.client ()) f q' pc' ev) ∧
      (s.afterPush (.client ()) f q' pc' ev).NeverRun := by
  constructor
  · refine polite_go h hnever ?_
    simp only [apiStep, hf, State.pushStep, hq, Option.map_some]
    rfl
  · have hdone : q'.isDone = false := by
      rw [← hnever.isDone]
      cases AtomicTaskStealingQueue.pushStep_spec hq <;> rfl
    obtain ⟨hstate, hterm, -, hexecuted, hcompleted⟩ := hnever
    cases pc' with
    | threw g => exact absurd rfl (hthrew g)
    | idle | counted | next | probe | leaving | returned =>
      exact ⟨hstate, hterm, hdone, hexecuted, hcompleted⟩

/-- `post(ThunkType)` accepts. -/
theorem Rests.post_thunk (hn : 0 < cfg.nTaskQueues) (h : Rests calls s) {c : Call} (hc : c.Plain)
    {body : ThunkBody} (hbegin : s.begin (.client ()) c = s.beginPush (.client ()) body) :
    ∃ s' : State cfg Unit, Rests (calls ++ [c]) s' ∧ s'.HasAccepted := by
  have h₀ := h.call hc
  rw [hbegin] at h₀
  have hnever : (s.beginPush (.client ()) body).NeverRun := by
    obtain ⟨hstate, hterm, hdone, hexecuted, hcompleted⟩ := h.2.1
    exact ⟨hstate, hterm, hdone, hexecuted, hcompleted⟩
  have hdone : (s.beginPush (.client ()) body).taskQueue.isDone = false := hnever.isDone
  -- it reads `is_done_`, takes an offset, stores and leaves
  have hcounted : (s.beginPush (.client ()) body).frame (.client ()) =
      some (.push ⟨s.nextId, body⟩ (.counted ⟨s.nextId, body⟩)) := by
    simp [beginPush, setFrame, AtomicTaskStealingQueue.pushCall]
  obtain ⟨h₁, hnever₁⟩ := polite_push h₀ hnever ⟨s.nextId, body⟩ hcounted
    (by rw [AtomicTaskStealingQueue.pushStep, hdone]) (by simp)
  obtain ⟨h₂, hnever₂⟩ := polite_push h₁ hnever₁ ⟨s.nextId, body⟩
    (by simp [afterPush, setFrame]; rfl) rfl (by simp)
  obtain ⟨h₃, hnever₃⟩ := polite_push h₂ hnever₂ ⟨s.nextId, body⟩
    (by simp [afterPush, setFrame]; rfl)
    (by rw [AtomicTaskStealingQueue.pushStep, if_neg (Nat.ne_of_lt hn)]; rfl) (by simp)
  obtain ⟨h₄, hnever₄⟩ := polite_push h₃ hnever₃ ⟨s.nextId, body⟩
    (by simp [afterPush, setFrame]; rfl) rfl (by simp)
  exact ⟨_, ⟨h₄, hnever₄, by simp [afterPush, setFrame]⟩,
    Or.inl ⟨⟨s.nextId, body⟩, by simp [afterPush]⟩⟩

/-- A step of the other overloads of `post`. -/
theorem polite_post (h : (clientSystem cfg).ReachableUnder Polite (calls, s)) (hnever : s.NeverRun)
    (kind : PostKind) (id : ℕ) {pc : PostPc}
    (hf : s.frame (.client ()) = some (.post kind id pc)) :
    (clientSystem cfg).ReachableUnder Polite (calls, s.postStep (.client ()) kind id false pc) ∧
      (s.postStep (.client ()) kind id false pc).NeverRun := by
  constructor
  · refine polite_go h hnever ?_
    simp only [apiStep, hf]
  · obtain ⟨hstate, hterm, hdone, hexecuted, hcompleted⟩ := hnever
    rcases pc with - | (_ | _) | i | can <;>
      exact ⟨hstate, hterm, hdone, hexecuted, hcompleted⟩

/-- The other overloads of `post` accept. -/
theorem Rests.post_event (h : Rests calls s) {c : Call} (hc : c.Plain) {kind : PostKind}
    (hbegin : s.begin (.client ()) c = s.beginPost (.client ()) kind) :
    ∃ s' : State cfg Unit, Rests (calls ++ [c]) s' ∧ s'.HasAccepted := by
  have h₀ := h.call hc
  rw [hbegin] at h₀
  have hnever : (s.beginPost (.client ()) kind).NeverRun := by
    obtain ⟨hstate, hterm, hdone, hexecuted, hcompleted⟩ := h.2.1
    exact ⟨hstate, hterm, hdone, hexecuted, hcompleted⟩
  have hcan : (s.beginPost (.client ()) kind).state.canPost = true := by
    rw [hnever.state]
    rfl
  -- it reads the state, takes a queue, makes the event there and leaves
  have hcounted : (s.beginPost (.client ()) kind).frame (.client ()) =
      some (.post kind s.nextId .counted) := by
    simp [beginPost, setFrame]
  obtain ⟨h₁, hnever₁⟩ := polite_post h₀ hnever kind s.nextId hcounted
  have hdecided : ((s.beginPost (.client ()) kind).postStep (.client ()) kind s.nextId false
      .counted).frame (.client ()) = some (.post kind s.nextId (.decided true)) := by
    simp [postStep, setFrame, hcan]
  obtain ⟨h₂, hnever₂⟩ := polite_post h₁ hnever₁ kind s.nextId hdecided
  obtain ⟨h₃, hnever₃⟩ := polite_post h₂ hnever₂ kind s.nextId
    (by simp [postStep, setFrame]; rfl)
  obtain ⟨h₄, hnever₄⟩ := polite_post h₃ hnever₃ kind s.nextId
    (by simp [postStep, setFrame]; rfl)
  exact ⟨_, ⟨h₄, hnever₄, by simp [postStep, setFrame]⟩,
    Or.inr ⟨kind.event s.nextId, by simp [postStep]⟩⟩

theorem Rests.post (hn : 0 < cfg.nTaskQueues) (h : Rests calls s) {c : Call} (hc : c.IsPost) :
    ∃ s' : State cfg Unit, Rests (calls ++ [c]) s' ∧ s'.HasAccepted := by
  have hplain : c.Plain := Or.inl hc
  cases c with
  | post => exact h.post_thunk hn hplain rfl
  | postAt now deadline =>
    by_cases hle : now ≤ deadline
    · exact h.post_thunk hn hplain (if_pos hle)
    · exact h.post_event hplain (if_neg hle)
  | postAfter | postRpc | startRpc => exact h.post_event hplain rfl
  | schedule | runWhile | stop | makeServer | addNotifyAtStopped | resume => exact absurd hc id

/-- `stop` does nothing to a context that has not been run. -/
theorem Rests.stop (h : Rests calls s) :
    ∃ s' : State cfg Unit, Rests (calls ++ [.stop]) s' ∧ s'.returned = s.returned ∧
      s'.posted = s.posted := by
  have h₀ := h.call (c := .stop) (Or.inr (Or.inr rfl))
  obtain ⟨hstate, hterm, hdone, hexecuted, hcompleted⟩ := h.2.1
  have hnever : (s.begin (.client ()) .stop).NeverRun :=
    ⟨hstate, hterm, hdone, hexecuted, hcompleted⟩
  -- its compare-exchange fails, and it returns
  let s₁ := (s.begin (.client ()) .stop).setFrame (.client ()) (some (.stop .lost))
  have hlose : (s.begin (.client ()) .stop).apiStep (.client ()) ⟨.free, false, false, false⟩ =
      some s₁ := by
    simp [s₁, apiStep, begin, setFrame, stopStep, hstate, ExecutionState.setState]
  have hnever₁ : s₁.NeverRun := ⟨hstate, hterm, hdone, hexecuted, hcompleted⟩
  have hreturn : s₁.apiStep (.client ()) ⟨.free, false, false, false⟩ =
      some (s₁.setFrame (.client ()) none) := by
    simp [s₁, apiStep, setFrame, stopStep]
  have h₂ := polite_go (polite_go h₀ hnever hlose) hnever₁ hreturn
  exact ⟨_, ⟨h₂, ⟨hstate, hterm, hdone, hexecuted, hcompleted⟩, by simp [setFrame]⟩, rfl, rfl⟩

/-- Without a call of `run_while` the client gets through, and what it has posted is accepted. -/
theorem exists_rests (hn : 0 < cfg.nTaskQueues) (calls : List Call) (hplain : ∀ c ∈ calls, c.Plain)
    (hrun : .runWhile ∉ calls) :
    ∃ s : State cfg Unit, Rests calls s ∧ ((∃ c ∈ calls, c.IsPost) → s.HasAccepted) := by
  induction calls using List.reverseRecOn with
  | nil =>
    refine ⟨.initial, ⟨init_client, ⟨rfl, rfl, rfl, rfl, rfl⟩, rfl⟩, ?_⟩
    rintro ⟨c, hc, -⟩
    cases hc
  | append_singleton calls c ih =>
    obtain ⟨s, hrests, haccepted⟩ := ih (fun c hc => hplain c (List.mem_append_left _ hc))
      fun hmem => hrun (List.mem_append_left _ hmem)
    have hlast : c ∈ calls ++ [c] := List.mem_append_right _ (List.mem_singleton.mpr rfl)
    rcases hplain c hlast with hpost | rfl | rfl
    · obtain ⟨s', hrests', haccepted'⟩ := hrests.post hn hpost
      exact ⟨s', hrests', fun _ => haccepted'⟩
    · exact absurd hlast hrun
    · obtain ⟨s', hrests', hreturned, hposted⟩ := hrests.stop
      refine ⟨s', hrests', ?_⟩
      rintro ⟨c, hc, hpost⟩
      have hc' : c ∈ calls := by
        rcases List.mem_append.mp hc with hc | hc
        · exact hc
        · obtain rfl := List.mem_singleton.mp hc
          exact absurd hpost id
      simpa only [HasAccepted, hreturned, hposted] using haccepted ⟨c, hc', hpost⟩

/-- What a client has posted to a context that is never run is abandoned. -/
theorem not_drains (hn : 0 < cfg.nTaskQueues) (hplain : ∀ c ∈ calls, c.Plain)
    (hrun : .runWhile ∉ calls) (hpost : ∃ c ∈ calls, c.IsPost) : ¬ Drains cfg calls := by
  intro hdrains
  obtain ⟨s, hrests, haccepted⟩ : ∃ s : State cfg Unit, Rests calls s ∧
      ((∃ c ∈ calls, c.IsPost) → s.HasAccepted) := exists_rests hn calls hplain hrun
  obtain ⟨s', ⟨hreach, hnever, hidle⟩, hreturned, hposted⟩ := hrests.stop
  obtain ⟨hexecuted, hcompleted⟩ := hdrains s' hreach hidle
  rcases haccepted hpost with ⟨f, hf⟩ | ⟨e, he⟩
  · have hcount := hexecuted f (by rw [hreturned, hf])
    simp [hnever.executed] at hcount
  · have hcount := hcompleted e (by rw [hposted, he])
    simp [hnever.completed] at hcount

/-- **When destruction abandons accepted work.** A client that posts, runs and stops, in any order,
and then destroys the context leaves nothing behind if it has called `run_while`, or has posted
nothing; else it does. (A task queue with `2 ^ 32 - 1` threads has no sub-queue, and a
`post(ThunkType)` never returns.) -/
theorem drains_iff (hplain : ∀ c ∈ calls, c.Plain) :
    ((.runWhile ∈ calls ∨ ∀ c ∈ calls, ¬ c.IsPost) → Drains cfg calls) ∧
      (0 < cfg.nTaskQueues → Drains cfg calls → .runWhile ∈ calls ∨ ∀ c ∈ calls, ¬ c.IsPost) := by
  constructor
  · intro hcalls
    by_cases hrun : .runWhile ∈ calls
    · exact drains_of_run hrun
    · refine drains_of_stops fun c hc => ?_
      have hnone := hcalls.resolve_left hrun
      rcases hplain c hc with hpost | rfl | hstop
      · exact absurd hpost (hnone c hc)
      · exact absurd hc hrun
      · exact hstop
  · intro hn hdrains
    by_contra hcalls
    push Not at hcalls
    exact not_drains hn hplain hcalls.1 hcalls.2 hdrains

/-- The steps of these runs: nothing throws, and no predicate holds. -/
def politely (_ : List Call × State cfg Unit) : Act Unit → Bool
  | .call (.client _) c => c.Plain
  | .api (.client _) answer => !answer.throws
  | .work _ answer => !answer.predicate
  | _ => false

theorem polite_of_politely (p : List Call × State cfg Unit) (a : Act Unit)
    (h : politely p a = true) : Polite p a := by
  rcases a with ⟨⟨t⟩ | w, c⟩ | ⟨⟨t⟩ | w, answer⟩ | ⟨w, answer⟩
  · have hc : c.Plain := of_decide_eq_true h
    refine ⟨fun w hw => ?_, hc⟩
    cases c <;> cases hw
  · cases h
  · exact ⟨fun w hw => (by cases hw), by simpa [politely] using h⟩
  · cases h
  · have hp : answer.predicate = false := by simpa [politely] using h
    exact ⟨fun v hv => by simp [stopCaller, hp] at hv, trivial⟩

/-- The client posts a thunk. -/
def thunkCalls : List (Act Unit) :=
  .call (.client ()) .post :: List.replicate 4 (go (.client ()))

/-- The client posts a thunk, runs the context and destroys it. -/
theorem drains_iff_thunkCalls : ∃ s : State oneThread Unit, s.frame (.client ()) = none ∧
    s.returned ⟨0, .user⟩ = some true ∧ s.executed.count ⟨0, .user⟩ = 1 := by
  let p := ((clientSystem oneThread).execWhile politely ([], .initial)
    (thunkCalls ++ runCalls ++ stopCalls.take 15 ++ turn false :: stopCalls.drop 15 ++
      List.replicate 3 (go (.client ())))).get (by decide)
  have hp : (clientSystem oneThread).ReachableUnder Polite p :=
    System.ReachableUnder.execWhile polite_of_politely init_client (Option.some_get _).symm
  have hcalls : p.1 = [.post, .runWhile] ++ [.stop] := by decide
  have hidle : p.2.frame (.client ()) = none := by decide
  have hdrains : Drains oneThread [.post, .runWhile] :=
    (drains_iff (by decide)).1 (Or.inl (by decide))
  have hreturned : p.2.returned ⟨0, .user⟩ = some true := by decide
  refine ⟨p.2, hidle, hreturned, (hdrains p.2 ?_ hidle).1 _ hreturned⟩
  rwa [← hcalls]

/-- The client posts a thunk and destroys the context without having run it. -/
theorem exists_abandoned_post : ¬ ∀ (cfg : Config) (calls : List Call),
    (∀ c ∈ calls, c.Plain) → calls.count .runWhile ≤ 1 → Drains cfg calls := by
  intro hall
  let p := ((clientSystem oneThread).execWhile politely ([], .initial)
    (thunkCalls ++ .call (.client ()) .stop :: List.replicate 2 (go (.client ())))).get (by decide)
  have hp : (clientSystem oneThread).ReachableUnder Polite p :=
    System.ReachableUnder.execWhile polite_of_politely init_client (Option.some_get _).symm
  have hcalls : p.1 = [.post] ++ [.stop] := by decide
  have hidle : p.2.frame (.client ()) = none := by decide
  have hdrains := hall oneThread [.post] (by decide) (by decide)
  have hcount := (hdrains p.2 (by rwa [← hcalls]) hidle).1 ⟨0, .user⟩ (by decide)
  exact absurd hcount (by decide)

end State

end Sgrpc
