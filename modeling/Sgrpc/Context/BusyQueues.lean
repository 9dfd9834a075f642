import Mathlib.Data.Int.CardIntervalMod
import Sgrpc.Context.MakeServer
import Sgrpc.Context.Starvation

/-!
# Queues that keep every worker busy

With fewer workers than queues in a set, no worker begins its passes with the last queue of the
set. As long as the queues they do begin with hold an event each pass takes it and ends, without a
poll of that queue. Such a run is built here for every number of workers and of queues, from
single steps: one pass of one worker (`busy_pass`), the passes of one worker, those of all workers
(`starves_of_busy`). Before it the events are made, by posts for the queues in `cqs_` and by
`wire_rpcs` for the work queues of a server.
-/

namespace Sgrpc

open Interleaving

namespace Watch

/-- Worker `w` is in a pass that has polled these queues. -/
def during (o : Watch) (w : ℕ) (polls : List QueueId) : Watch :=
  { o with current := Function.update o.current w (some polls) }

/-- Worker `w` has completed a pass that has polled these queues. -/
def done (o : Watch) (w : ℕ) (polls : List QueueId) : Watch where
  current := Function.update o.current w none
  passes := Function.update o.passes w (o.passes w ++ [polls])

theorem complete_during (o : Watch) (w : ℕ) (polls : List QueueId) :
    (o.during w polls).complete w = o.done w polls := by
  simp [complete, during, done]

theorem poll_during (o : Watch) (w : ℕ) (polls : List QueueId) (q : QueueId) :
    (o.during w polls).poll w q = o.during w (polls ++ [q]) := by
  simp [poll, during]

end Watch

namespace State

variable {cfg : Config} {τ : Type*} [DecidableEq τ] {s s' u u' : State cfg τ} {o : Watch}
  {p₀ : State cfg τ × Watch} {w k j : ℕ} {q : QueueId} {e : Event} {pc pc' : WorkerPc}

/-! ### One pass -/

/-- All workers are at the head of their loops, and nobody is in a member function. -/
structure AtRest (s : State cfg τ) : Prop where
  going : s.terminated = false
  created : s.created = cfg.nThreads
  worker : s.worker = fun _ => .top
  frame : s.frame = fun _ => none

/-- The state `u` differs from `s` in that worker `w` is at `pc`, and in what its pass does not
look at. -/
structure InPass (s : State cfg τ) (w : ℕ) (pc : WorkerPc) (u : State cfg τ) : Prop where
  worker : u.worker = Function.update s.worker w pc
  cq : u.cq = s.cq
  servers : u.servers = s.servers
  taskQueue : u.taskQueue = s.taskQueue
  created : u.created = s.created
  frame : u.frame = s.frame
  terminated : u.terminated = s.terminated

omit [DecidableEq τ] in
theorem InPass.goTo (h : InPass s w pc u) (pc' : WorkerPc) :
    InPass s w pc' (u.setWorker w pc') := by
  refine ⟨?_, h.cq, h.servers, h.taskQueue, h.created, h.frame, h.terminated⟩
  show Function.update u.worker w pc' = _
  rw [h.worker, Function.update_idem]

/-- The event is pending in the queue. -/
def Waits (e : Event) (q : QueueId) (p : State cfg τ × Watch) (_ : Act τ) : Prop :=
  e ∈ (p.1.cq q).pending

/-- A step, and what the observer sees of it. -/
theorem leads_step {a : Act τ} (hl : (watchedSystem cfg τ).Leads (Waits e q) p₀ (u, o))
    (hwait : e ∈ (u.cq q).pending) (hs : u.step a = some u') :
    (watchedSystem cfg τ).Leads (Waits e q) p₀ (u', o.see u a u') := by
  have hseen : (watchedSystem cfg τ).step (u, o) a = some (u', o.see u a u') :=
    System.step_observed_iff.mpr ⟨hs, rfl⟩
  exact hl.tail hwait hseen

/-- From `p₀` a run may come to `pc` in a pass of worker `w`, which has not polled `q` and during
which `e` waits there. -/
def OnWay (p₀ : State cfg τ × Watch) (e : Event) (q : QueueId) (s : State cfg τ) (o : Watch)
    (w : ℕ) (pc : WorkerPc) : Prop :=
  ∃ u polls, (watchedSystem cfg τ).Leads (Waits e q) p₀ (u, o.during w polls) ∧
    InPass s w pc u ∧ q ∉ polls

/-- A step of a worker that is in no member function. -/
theorem InPass.step (h : InPass s w pc u) (hrest : s.AtRest) (hw : w < cfg.nThreads)
    {answer : WorkAnswer} (hquiet : answer.throws = false)
    (hloop : u.loopStep w answer pc = some u') : u.step (.work w answer) = some u' := by
  have hat : u.worker w = pc := by rw [h.worker, Function.update_self]
  have hterm : u.terminated = false := h.terminated.trans hrest.going
  have henabled : w < u.created ∧ u.frame (.worker w) = none := by
    rw [h.created, hrest.created, h.frame, hrest.frame]
    exact ⟨hw, rfl⟩
  simp only [State.step, workStep, hterm, hquiet, Bool.false_eq_true, false_and, if_false,
    if_pos henabled, hat]
  exact hloop

/-- An answer with which nothing happens: no event, and no lock for a `try_pop`. -/
def idleAnswer : WorkAnswer := ⟨false, .timeout, false, false, .finished⟩

omit [DecidableEq τ] in
/-- The worker does not poll, unless it is in the loop over a set. -/
theorem InPass.polledQueue_ne (h : InPass s w pc u)
    (hpc : ∀ k i c, pc = .polling k i c → ¬ (i < s.setSize k ∧ c.current = c.executed)) :
    u.polledQueue w ≠ some q := by
  have hat : u.worker w = pc := by rw [h.worker, Function.update_self]
  rw [polledQueue, hat]
  cases pc with
  | polling k i c =>
    have hend := hpc k i c rfl
    rw [← setSize_of_servers h.servers] at hend
    simp only [if_neg hend]
    exact (Option.some_ne_none q).symm
  | _ => exact (Option.some_ne_none q).symm

omit [DecidableEq τ] in
theorem InPass.setSize_eq (h : InPass s w pc u) : u.setSize = s.setSize :=
  setSize_of_servers h.servers

omit [DecidableEq τ] in
theorem InPass.queueAt_eq (h : InPass s w pc u) : u.queueAt = s.queueAt :=
  queueAt_of_servers h.servers

/-- The events that are left in a queue. -/
def leave (s : State cfg τ) (q : QueueId) (rest : List Event) : State cfg τ :=
  s.setCq q { s.cq q with pending := rest }

section OnWay

variable (hrest : s.AtRest) (hw : w < cfg.nThreads) (hwait : e ∈ (s.cq q).pending)
include hrest hw hwait

/-- The pass goes on with a step that does not poll `q`. -/
theorem OnWay.step {s₁ : State cfg τ} (h : OnWay p₀ e q s o w pc) (hpc : pc ≠ .top)
    (hpc' : pc' ≠ .top) (hloop : ∀ u, InPass s w pc u → u.polledQueue w ≠ some q ∧
      ∃ answer u', answer.throws = false ∧ u.loopStep w answer pc = some u' ∧
        InPass s₁ w pc' u') :
    OnWay p₀ e q s₁ o w pc' := by
  obtain ⟨u, polls, hl, hin, hpolls⟩ := h
  obtain ⟨hq, answer, u', hquiet, hloop, hin'⟩ := hloop u hin
  have htop : u.worker w ≠ .top := by rwa [hin.worker, Function.update_self]
  have htop' : u'.worker w ≠ .top := by rwa [hin'.worker, Function.update_self]
  have hsee : ∃ polls', (o.during w polls).see u (.work w answer) u' = o.during w polls' ∧
      q ∉ polls' := by
    simp only [Watch.see, if_neg htop, if_neg htop']
    cases hpolled : u.polledQueue w with
    | none => exact ⟨polls, rfl, hpolls⟩
    | some q' =>
      refine ⟨polls ++ [q'], o.poll_during w polls q', fun hmem => ?_⟩
      rcases List.mem_append.mp hmem with hmem | hmem
      · exact hpolls hmem
      · exact hq (hpolled.trans (congrArg some (List.mem_singleton.mp hmem).symm))
  obtain ⟨polls', hsee, hpolls'⟩ := hsee
  refine ⟨u', polls', ?_, hin', hpolls'⟩
  rw [← hsee]
  exact leads_step hl (by rwa [hin.cq]) (hin.step hrest hw hquiet hloop)

/-- A step of the pass that only moves the worker on, and is no poll of `q`. -/
theorem OnWay.move (h : OnWay p₀ e q s o w pc) (hpc : pc ≠ .top) (hpc' : pc' ≠ .top)
    (hpolled : ∀ u, InPass s w pc u → u.polledQueue w ≠ some q)
    (hloop : ∀ u, InPass s w pc u → u.loopStep w idleAnswer pc = some (u.setWorker w pc')) :
    OnWay p₀ e q s o w pc' :=
  h.step hrest hw hwait hpc hpc' fun u hin =>
    ⟨hpolled u hin, idleAnswer, _, rfl, hloop u hin, hin.goTo pc'⟩

/-- A pass begins. -/
theorem onWay_start : OnWay (s, o) e q s o w (startPass cfg) := by
  have htop : s.worker w = .top := by rw [hrest.worker]
  have hin : InPass s w .top s := by
    refine ⟨?_, rfl, rfl, rfl, rfl, rfl, rfl⟩
    rw [← htop, Function.update_eq_self]
  have hstep : s.step (.work w idleAnswer) = some (s.setWorker w (startPass cfg)) :=
    hin.step hrest hw rfl rfl
  have hl := leads_step (System.Leads.refl (s, o)) hwait hstep
  have hsee : o.see s (.work w idleAnswer) (s.setWorker w (startPass cfg)) = o.during w [] := by
    rw [Watch.see, if_pos htop]
    rfl
  rw [hsee] at hl
  exact ⟨_, [], hl, ⟨rfl, rfl, rfl, rfl, rfl, rfl, rfl⟩, by simp⟩

/-- A set in which nothing happens, and which does not have `q`. -/
theorem OnWay.idle_set {c : PassCounts} (hq : ∀ j, s.queueAt k j ≠ q)
    (hc : c.current = c.executed) (h : OnWay p₀ e q s o w (.polling k 0 c)) :
    ∀ i ≤ s.setSize k, OnWay p₀ e q s o w (.polling k i c) := by
  intro i
  induction i with
  | zero => exact fun _ => h
  | succ i ih =>
    intro hi
    refine (ih (by omega)).move hrest hw hwait (by simp) (by simp) (fun u hin => ?_) fun u hin => ?_
    · rw [polledQueue, hin.worker, Function.update_self]
      simp only [hin.setSize_eq, if_pos (And.intro (Nat.lt_of_succ_le hi) hc), hin.queueAt_eq]
      exact fun heq => hq _ (Option.some.inj heq)
    · simp only [loopStep, hin.setSize_eq, if_pos (And.intro (Nat.lt_of_succ_le hi) hc)]
      simp [poll, idleAnswer, CompletionQueue.asyncNext, setCq]

/-- The sets before set `k`. -/
theorem OnWay.idle_sets (h : OnWay p₀ e q s o w (startPass cfg)) :
    ∀ k ≤ s.servers.length, (∀ k' < k, ∀ j, s.queueAt k' j ≠ q) →
      ∃ total, 0 < total ∧ OnWay p₀ e q s o w (.polling k 0 ⟨0, 0, total, 0⟩) := by
  intro k
  induction k with
  | zero => exact fun _ _ => ⟨cfg.nCqs, cfg.nCqs_pos, h⟩
  | succ k ih =>
    intro hk hq
    obtain ⟨total, hpos, hway⟩ := ih (by omega) fun k' hk' => hq k' (by omega)
    have hset := hway.idle_set hrest hw hwait (hq k (Nat.lt_succ_self k)) rfl _ le_rfl
    refine ⟨total + s.setSize (k + 1), by omega, hset.move hrest hw hwait (by simp) (by simp)
      (fun u hin => ?_) fun u hin => ?_⟩
    · exact hin.polledQueue_ne (by rintro _ _ _ ⟨⟩; simp)
    · have hlt : k < u.servers.length := hin.servers ▸ hk
      simp only [loopStep, hin.setSize_eq, Nat.lt_irrefl, false_and, if_false, if_pos hlt]

/-- The worker takes the first event of its queue. -/
theorem OnWay.take {c : PassCounts} {e₁ : Event} {rest : List Event} (hsize : w < s.setSize k)
    (hfit : s.setSize k ≤ unsignedSize) (hne : s.queueAt k w ≠ q) (hc : c.current = c.executed)
    (he : (s.cq (s.queueAt k w)).pending = e₁ :: rest)
    (h : OnWay p₀ e q s o w (.polling k 0 c)) :
    OnWay p₀ e q (s.leave (s.queueAt k w) rest) o w
      (.completing k 0 c (completionOf false e₁)) := by
  have hindex : nextCqIndex w 0 (s.setSize k) = w := by
    rw [nextCqIndex, Nat.add_zero, Nat.mod_eq_of_lt (hsize.trans_le hfit), Nat.mod_eq_of_lt hsize]
  have hgo : 0 < s.setSize k ∧ c.current = c.executed := ⟨by omega, hc⟩
  refine h.step hrest hw hwait (by simp) (by simp) fun u hin => ⟨?_, ?_⟩
  · rw [polledQueue, hin.worker, Function.update_self]
    simp only [hin.setSize_eq, if_pos hgo, hin.queueAt_eq, hindex]
    exact fun heq => hne (Option.some.inj heq)
  · refine ⟨⟨false, .gotEvent 0 false, false, false, .finished⟩,
      (u.leave (s.queueAt k w) rest).setWorker w (.completing k 0 c (completionOf false e₁)), rfl,
      ?_, ⟨?_, ?_, hin.servers, hin.taskQueue, hin.created, hin.frame, hin.terminated⟩⟩
    · simp only [loopStep, hin.setSize_eq, if_pos hgo, poll, hindex, hin.queueAt_eq,
        CompletionQueue.asyncNext, hin.cq, he]
      simp [leave, hin.cq]
    · show Function.update u.worker w _ = _
      rw [hin.worker, Function.update_idem]
      rfl
    · show Function.update u.cq _ _ = _
      rw [hin.cq]
      rfl

/-- Its `complete` is one step. -/
theorem OnWay.complete {i : ℕ} {c : PassCounts} {e₁ : Event}
    (h : OnWay p₀ e q s o w (.completing k i c (completionOf false e₁))) :
    OnWay p₀ e q s o w (.polling k (i + 1) { c with executed := c.executed + 1 }) := by
  refine h.step hrest hw hwait (by simp) (by simp) fun u hin =>
    ⟨?_, idleAnswer, _, rfl, rfl, ?_⟩
  · exact hin.polledQueue_ne (by rintro _ _ _ ⟨⟩)
  · obtain ⟨completed, heap, hcomplete⟩ : ∃ completed heap,
        u.completeStep w k i c (completionOf false e₁) =
          { u.setWorker w (.polling k (i + 1) { c with executed := c.executed + 1 }) with
            completed := completed
            heap := heap } := by
      rcases e₁ with id | id | n
      · exact ⟨_, _, rfl⟩
      · exact ⟨_, _, rfl⟩
      · exact ⟨_, _, if_pos (by simp)⟩
    rw [hcomplete]
    obtain ⟨hworker, hcq, hservers, htask, hcreated, hframe, hterm⟩ := hin.goTo
      (.polling k (i + 1) { c with executed := c.executed + 1 })
    exact ⟨hworker, hcq, hservers, htask, hcreated, hframe, hterm⟩

/-- After an event in the last set, with a queue that was not shut down, the worker goes to the task
queue. -/
theorem OnWay.to_taskQueue {i : ℕ} {c : PassCounts} (hc : c.current ≠ c.executed)
    (htotal : c.shutdown ≠ c.total) (h : OnWay p₀ e q s o w (.polling s.servers.length i c)) :
    OnWay p₀ e q s o w (.popping .idle) := by
  have hchecking : OnWay p₀ e q s o w (.checking c) := by
    refine h.move hrest hw hwait (by simp) (by simp) (fun u hin => ?_) fun u hin => ?_
    · exact hin.polledQueue_ne (by rintro _ _ _ ⟨⟩ ⟨-, heq⟩; exact hc heq)
    · simp only [loopStep, hc, and_false, if_false, hin.servers, Nat.lt_irrefl]
  refine hchecking.move hrest hw hwait (by simp) (by simp) (fun u hin => ?_) fun u hin => ?_
  · exact hin.polledQueue_ne (by rintro _ _ _ ⟨⟩)
  · simp only [loopStep, if_neg htotal]

/-- The call of `try_pop`. -/
theorem OnWay.popCall (h : OnWay p₀ e q s o w (.popping .idle)) :
    OnWay p₀ e q { s with taskQueue := (s.taskQueue.popCall none).1 } o w
      (.popping (.probe none s.taskQueue.popIndex 0)) := by
  refine h.step hrest hw hwait (by simp) (by simp) fun u hin =>
    ⟨?_, idleAnswer, _, rfl, rfl, ?_⟩
  · exact hin.polledQueue_ne (by rintro _ _ _ ⟨⟩)
  · refine ⟨?_, hin.cq, hin.servers, ?_, hin.created, hin.frame, hin.terminated⟩
    · show Function.update u.worker w _ = _
      rw [hin.worker, Function.update_idem, hin.taskQueue]
      rfl
    · show (u.taskQueue.popCall none).1 = _
      rw [hin.taskQueue]

/-- A `try_pop` that gets no lock. -/
theorem OnWay.pop_nothing {offset : ℕ}
    (h : OnWay p₀ e q s o w (.popping (.probe none offset 0))) :
    OnWay p₀ e q s o w (.popping (.returned false none)) := by
  have hpolled : ∀ {pc} u, InPass s w (.popping pc) u → u.polledQueue w ≠ some q :=
    fun u hin => hin.polledQueue_ne (by rintro _ _ _ ⟨⟩)
  have hprobes : ∀ i ≤ cfg.nTaskQueues,
      OnWay p₀ e q s o w (.popping (.probe none offset i)) := by
    intro i
    induction i with
    | zero => exact fun _ => h
    | succ i ih =>
      intro hi
      refine (ih (by omega)).move hrest hw hwait (by simp) (by simp) hpolled fun u _ => ?_
      have hne : i ≠ cfg.nTaskQueues := by omega
      simp [loopStep, popStep, AtomicTaskStealingQueue.popStep, hne, idleAnswer,
        OptimisiticLockingQueue.tryPop]
  refine (hprobes _ le_rfl).move hrest hw hwait (by simp) (by simp) hpolled fun u _ => ?_
  simp [loopStep, popStep, AtomicTaskStealingQueue.popStep]

/-- The worker is back at the head of its loop. -/
theorem OnWay.back (h : OnWay p₀ e q s o w (.popping (.returned false none))) :
    ∃ u polls, (watchedSystem cfg τ).Leads (Waits e q) p₀ (u, o.done w polls) ∧ u.AtRest ∧
      u.servers = s.servers ∧ u.cq = s.cq ∧ q ∉ polls := by
  obtain ⟨u, polls, hl, hin, hpolls⟩ := h
  have hstep : u.step (.work w idleAnswer) = some (u.setWorker w .top) :=
    hin.step hrest hw rfl rfl
  have hsee : (o.during w polls).see u (.work w idleAnswer) (u.setWorker w .top) =
      o.done w polls := by
    have htop : u.worker w ≠ .top := by simp [hin.worker]
    rw [Watch.see, if_neg htop, if_pos (by simp [setWorker]), Watch.complete_during]
  have hl' := leads_step hl (by rwa [hin.cq]) hstep
  rw [hsee] at hl'
  refine ⟨_, polls, hl', ⟨hin.terminated.trans hrest.going, hin.created.trans hrest.created, ?_,
    hin.frame.trans hrest.frame⟩, hin.servers, hin.cq, hpolls⟩
  show Function.update u.worker w .top = _
  rw [hin.worker, hrest.worker, Function.update_idem]
  exact Function.update_eq_self_iff.mpr rfl

/-- A `try_pop` that gets no lock, from its call on: the worker is back at the head of its loop. -/
theorem OnWay.tryPop (h : OnWay p₀ e q s o w (.popping .idle)) :
    ∃ u polls, (watchedSystem cfg τ).Leads (Waits e q) p₀ (u, o.done w polls) ∧ u.AtRest ∧
      u.servers = s.servers ∧ u.cq = s.cq ∧ q ∉ polls := by
  let s₁ : State cfg τ := { s with taskQueue := (s.taskQueue.popCall none).1 }
  have hrest₁ : s₁.AtRest := ⟨hrest.going, hrest.created, hrest.worker, hrest.frame⟩
  have hcalled : OnWay p₀ e q s₁ o w (.popping (.probe none s.taskQueue.popIndex 0)) :=
    h.popCall hrest hw hwait
  have hback := (hcalled.pop_nothing hrest₁ hw hwait).back hrest₁ hw hwait
  exact hback

end OnWay

/-! ### As many passes as there are events -/

/-- All workers are at rest, `e` waits in `q`, and `q` is none of the queues with which the workers
begin in set `k`, which is the last one, nor in an earlier set. -/
structure Busy (s : State cfg τ) (k : ℕ) (e : Event) (q : QueueId) : Prop where
  rest : s.AtRest
  waits : e ∈ (s.cq q).pending
  last : s.servers.length = k
  le : cfg.nThreads ≤ s.setSize k
  fits : s.setSize k ≤ unsignedSize
  ne : ∀ w < cfg.nThreads, s.queueAt k w ≠ q
  earlier : ∀ k' < k, ∀ j, s.queueAt k' j ≠ q

omit [DecidableEq τ] in
theorem Busy.of_rest (h : s.Busy k e q) (hrest : u.AtRest) (hservers : u.servers = s.servers)
    (hcq : u.cq q = s.cq q) : u.Busy k e q := by
  have hsize := setSize_of_servers hservers
  have hqueue := queueAt_of_servers hservers
  exact ⟨hrest, hcq ▸ h.waits, hservers ▸ h.last, hsize ▸ h.le, hsize ▸ h.fits, hqueue ▸ h.ne,
    hqueue ▸ h.earlier⟩

/-- **One pass.** Worker `w` takes an event from queue `w` of the last set and does not poll `q`. -/
theorem busy_pass (h : s.Busy k e q) (hw : w < cfg.nThreads) {e₁ : Event} {rest : List Event}
    (he : (s.cq (s.queueAt k w)).pending = e₁ :: rest) :
    ∃ u polls, (watchedSystem cfg τ).Leads (Waits e q) (s, o) (u, o.done w polls) ∧ u.AtRest ∧
      u.servers = s.servers ∧ u.cq = (s.leave (s.queueAt k w) rest).cq ∧ q ∉ polls := by
  obtain ⟨hrest, hwait, rfl, hle, hfit, hne, hother⟩ := h
  obtain ⟨total, hpos, hway⟩ :=
    (onWay_start (o := o) hrest hw hwait).idle_sets hrest hw hwait _ le_rfl hother
  have htaken := hway.take hrest hw hwait (hw.trans_le hle) hfit (hne w hw) rfl he
  have hrest' : (s.leave (s.queueAt s.servers.length w) rest).AtRest :=
    ⟨hrest.going, hrest.created, hrest.worker, hrest.frame⟩
  have hwait' : e ∈ ((s.leave (s.queueAt s.servers.length w) rest).cq q).pending := by
    show e ∈ (Function.update s.cq _ _ q).pending
    rwa [Function.update_of_ne (hne w hw).symm]
  have hcompleted := htaken.complete hrest' hw hwait'
  exact (hcompleted.to_taskQueue hrest' hw hwait' (by simp) hpos.ne).tryPop hrest' hw hwait'

/-- The passes of one worker, one for each event of its queue. -/
theorem busy_passes (hw : w < cfg.nThreads) (m : ℕ) : ∀ {s : State cfg τ} {o : Watch},
    s.Busy k e q → m ≤ (s.cq (s.queueAt k w)).pending.length →
    ∃ u o', (watchedSystem cfg τ).Leads (Waits e q) (s, o) (u, o') ∧ u.Busy k e q ∧
      u.servers = s.servers ∧ (∀ q' ≠ s.queueAt k w, u.cq q' = s.cq q') ∧
      (∀ v ≠ w, o'.passes v = o.passes v) ∧
      ∃ ls, o'.passes w = o.passes w ++ ls ∧ ls.length = m ∧ ∀ l ∈ ls, q ∉ l := by
  induction m with
  | zero =>
    intro s o h _
    exact ⟨s, o, System.Leads.refl _, h, rfl, fun _ _ => rfl, fun _ _ => rfl, [],
      (List.append_nil _).symm, rfl, by simp⟩
  | succ m ih =>
    intro s o h hm
    obtain ⟨e₁, rest, he⟩ := List.exists_cons_of_length_pos (Nat.zero_lt_of_lt hm)
    obtain ⟨u, polls, hl, hrest, hservers, hcq, hpolls⟩ := busy_pass (o := o) h hw he
    have hother : ∀ q' ≠ s.queueAt k w, u.cq q' = s.cq q' := by
      intro q' hq'
      rw [hcq]
      exact Function.update_of_ne hq' _ _
    have hqueue := queueAt_of_servers hservers
    have hm' : m ≤ (u.cq (u.queueAt k w)).pending.length := by
      have hleft : (u.cq (s.queueAt k w)).pending = rest := by
        rw [hcq]
        simp [leave, setCq]
      rw [he, List.length_cons] at hm
      rw [hqueue, hleft]
      omega
    have hbusy := h.of_rest hrest hservers (hother q (h.ne w hw).symm)
    obtain ⟨u', o', hl', hbusy', hservers', hcq', hpasses, ls, hls, hlen, hnone⟩ :=
      ih (o := o.done w polls) hbusy hm'
    refine ⟨u', o', hl.trans hl', hbusy', hservers'.trans hservers, fun q' hq' => ?_,
      fun v hv => (hpasses v hv).trans (Function.update_of_ne hv _ _), polls :: ls, ?_, ?_, ?_⟩
    · exact (hcq' q' (hqueue ▸ hq')).trans (hother q' hq')
    · rw [hls]
      show Function.update o.passes w _ w ++ ls = _
      rw [Function.update_self, List.append_assoc, List.singleton_append]
    · rw [List.length_cons, hlen]
    · rintro l hmem
      rcases List.mem_cons.mp hmem with rfl | hmem
      · exact hpolls
      · exact hnone l hmem

omit [DecidableEq τ] in
theorem queueAt_inj {i : ℕ} (h : s.queueAt k i = s.queueAt k j) : i = j := by
  cases k with
  | zero => exact QueueId.own.inj h
  | succ k => exact (QueueId.server.inj h).2

/-- The passes of all workers, one worker after the other. -/
theorem busy_workers {m : ℕ} (h : s.Busy k e q)
    (hm : ∀ w < cfg.nThreads, m ≤ (s.cq (s.queueAt k w)).pending.length) :
    ∀ n ≤ cfg.nThreads, ∃ u o, (watchedSystem cfg τ).Leads (Waits e q) (s, .start) (u, o) ∧
      u.Busy k e q ∧ u.servers = s.servers ∧
      (∀ w, n ≤ w → u.cq (s.queueAt k w) = s.cq (s.queueAt k w) ∧ o.passes w = []) ∧
      ∀ w < n, (o.passes w).length = m ∧ ∀ l ∈ o.passes w, q ∉ l := by
  intro n
  induction n with
  | zero =>
    intro _
    exact ⟨s, .start, System.Leads.refl _, h, rfl, fun _ _ => ⟨rfl, rfl⟩, fun _ hw => by omega⟩
  | succ n ih =>
    intro hn
    obtain ⟨u, o, hl, hbusy, hservers, hlater, hdone⟩ := ih (by omega)
    have hqueue := queueAt_of_servers hservers
    have hlen : m ≤ (u.cq (u.queueAt k n)).pending.length := by
      rw [hqueue, (hlater n le_rfl).1]
      exact hm n hn
    obtain ⟨u', o', hl', hbusy', hservers', hcq, hpasses, ls, hls, hlsm, hnone⟩ :=
      busy_passes (o := o) hn m hbusy hlen
    rw [(hlater n le_rfl).2, List.nil_append] at hls
    refine ⟨u', o', hl.trans hl', hbusy', hservers'.trans hservers, fun w hw => ⟨?_, ?_⟩,
      fun w hw => ?_⟩
    · rw [hcq _ fun heq => ?_, (hlater w (by omega)).1]
      have hwn := queueAt_inj (hqueue ▸ heq)
      omega
    · rw [hpasses w (by omega), (hlater w (by omega)).2]
    · rcases Nat.lt_succ_iff_lt_or_eq.mp hw with hlt | rfl
      · rw [hpasses w hlt.ne]
        exact hdone w hlt
      · rw [hls]
        exact ⟨hlsm, hnone⟩

/-- A set whose first queues hold enough events starves. -/
theorem starves_of_busy (hlt : cfg.nThreads < s.setSize k)
    (h : s.Busy k e (s.queueAt k cfg.nThreads))
    (hm : ∀ w < cfg.nThreads, s.setSize k ≤ (s.cq (s.queueAt k w)).pending.length) :
    s.Starves k := by
  obtain ⟨u, o, hl, hbusy, -, -, hdone⟩ := busy_workers h hm _ le_rfl
  refine ⟨cfg.nThreads, hlt, e, u, o, hl, hbusy.waits, fun w hw => ?_⟩
  exact ⟨o.passes w, List.infix_rfl, hdone w hw⟩

/-! ### Filling the queues -/

/-- A context that has not been run, with nobody in a member function. -/
structure Calm (s : State cfg τ) : Prop where
  reachable : (contextSystem cfg τ).Reachable s
  state : s.state = .Ready
  padlock : s.padlock = false
  going : s.terminated = false
  created : s.created = 0
  worker : s.worker = fun _ => .top
  frame : s.frame = fun _ => none

theorem calm_initial : (initial : State cfg τ).Calm :=
  ⟨.init rfl, rfl, rfl, rfl, rfl, rfl, rfl⟩

/-- A step in a member function. -/
theorem step_api {t : Tid τ} {answer : ApiAnswer} (hterm : s.terminated = false) :
    s.step (.api t answer) = s.apiStep t answer := by
  simp [State.step, hterm]

/-- The threads are created one after the other. -/
theorem rest_of_spawning {t : τ} (d : ℕ) : ∀ {i : ℕ} {s : State cfg τ}, i + d = cfg.nThreads →
    (contextSystem cfg τ).Reachable s → s.terminated = false → s.created = i →
    s.worker = (fun _ => .top) →
    s.frame = Function.update (fun _ => none) (.client t) (some (.runWhile (.spawning i))) →
    ∃ s', (contextSystem cfg τ).Reachable s' ∧ s'.AtRest ∧ s'.cq = s.cq ∧
      s'.servers = s.servers := by
  induction d with
  | zero =>
    intro i s hi hr hterm hcreated hworker hframe
    have hstep : s.step (go (.client t)) = some (s.setFrame (.client t) none) := by
      have hlast : ¬ i < cfg.nThreads := by omega
      refine (step_api hterm).trans ?_
      simp [apiStep, hframe, runStep, hlast]
    refine ⟨_, reachable_step hr hstep, ⟨hterm, hcreated.trans hi, hworker, ?_⟩,
      rfl, rfl⟩
    show Function.update s.frame _ none = _
    rw [hframe, Function.update_idem]
    exact Function.update_eq_self_iff.mpr rfl
  | succ d ih =>
    intro i s hi hr hterm hcreated hworker hframe
    have hlt : i < cfg.nThreads := by omega
    let u : State cfg τ := { s.setFrame (.client t) (some (.runWhile (.storing i))) with
      created := s.created + 1 }
    let u' : State cfg τ := { u.setFrame (.client t) (some (.runWhile (.spawning (i + 1)))) with
      threads := u.threads ++ [i] }
    have hspawn : s.step (go (.client t)) = some u := by
      refine (step_api hterm).trans ?_
      simp [apiStep, hframe, runStep, hlt, u]
    have hstore : u.step (go (.client t)) = some u' := by
      refine (step_api (show u.terminated = false from hterm)).trans ?_
      simp [apiStep, runStep, u, u', setFrame]
    have hframe' : u'.frame =
        Function.update (fun _ => none) (.client t) (some (.runWhile (.spawning (i + 1)))) := by
      simp [u', u, setFrame, hframe]
    exact ih (s := u') (by omega) (reachable_step (reachable_step hr hspawn) hstore) hterm
      (congrArg Nat.succ hcreated) hworker
      hframe'

/-- A client posts a call. -/
theorem calm_post (t : τ) (h : s.Calm) : ∃ s' : State cfg τ, s'.Calm ∧ s'.servers = s.servers ∧
    s'.nextCqWriteIndex = (s.nextCqWriteIndex + 1) % 2 ^ 64 ∧ ∃ e, s'.cq = Function.update s.cq
      (.own (s.nextCqWriteIndex % cfg.nCqs))
      ((s.cq (.own (s.nextCqWriteIndex % cfg.nCqs))).start e) := by
  let q := QueueId.own (s.nextCqWriteIndex % cfg.nCqs)
  let e := Event.inflightRpc s.nextId
  let u : State cfg τ := { s.setFrame (.client t) none with
    nextId := s.nextId + 1
    nextCqWriteIndex := (s.nextCqWriteIndex + 1) % 2 ^ 64
    invoked := s.invoked ++ [e]
    cq := Function.update s.cq q ((s.cq q).start e)
    made := s.made ++ [e]
    heap := s.heap ++ [e]
    posted := Function.update s.posted e (some true) }
  have hpost : (contextSystem cfg τ).exec s
      (.call (.client t) .postRpc :: List.replicate 4 (go (.client t))) = some u := by
    simp [System.exec, contextSystem, State.step, MayCall, h.going, h.frame, begin, beginPost, go,
      apiStep, postStep, h.state, ExecutionState.canPost, ExecutionState.toInt, setFrame, setCq,
      PostKind.event, u, q, e]
  refine ⟨u, ⟨h.reachable.leads (System.leads_of_exec (fun _ _ => trivial) hpost), h.state,
    h.padlock, h.going, h.created, h.worker, ?_⟩, rfl, rfl, e, rfl⟩
  show Function.update s.frame _ none = _
  rw [h.frame]
  exact Function.update_eq_self_iff.mpr rfl

/-- A client posts `m` calls, which go to the queues in turn. -/
theorem calm_posts (cfg : Config) (t : τ) (m : ℕ) (hm : m ≤ 2 ^ 64) : ∃ s : State cfg τ,
    s.Calm ∧ s.servers = [] ∧ s.nextCqWriteIndex = m % 2 ^ 64 ∧
    ∀ j < cfg.nCqs, (s.cq (.own j)).pending.length = m.count (· ≡ j [MOD cfg.nCqs]) := by
  induction m with
  | zero => exact ⟨initial, calm_initial, rfl, rfl, fun j _ => by simp [initial,
      CompletionQueue.empty]⟩
  | succ m ih =>
    obtain ⟨s, hcalm, hservers, hindex, hcount⟩ := ih (by omega)
    rw [Nat.mod_eq_of_lt hm] at hindex
    obtain ⟨s', hcalm', hservers', hindex', e, hcq⟩ := calm_post t hcalm
    refine ⟨s', hcalm', hservers'.trans hservers, by rw [hindex', hindex], fun j hj => ?_⟩
    have hmod : m ≡ j [MOD cfg.nCqs] ↔ m % cfg.nCqs = j := by
      rw [Nat.ModEq, Nat.mod_eq_of_lt hj]
    rw [hcq, hindex, Nat.count_succ, ← hcount j hj]
    by_cases heq : m % cfg.nCqs = j
    · rw [if_pos (hmod.mpr heq), heq, Function.update_self]
      simp [CompletionQueue.start]
    · rw [if_neg (mt hmod.mp heq), Function.update_of_ne (by simpa using Ne.symm heq)]
      rfl

/-- A client makes a server, in a new context. -/
theorem calm_make (cfg : Config) (t : τ) {wired : List (List Bool)} (hne : wired ≠ []) :
    ∃ s : State cfg τ, s.Calm ∧ s.servers = [⟨0, wired.length⟩] ∧
    ∀ j l, wired[j]? = some l → (s.cq (.server 0 j)).pending.length = l.length := by
  let s₁ : State cfg τ := initial.begin (.client t) (.makeServer wired)
  have hcall : (initial : State cfg τ).step (.call (.client t) (.makeServer wired)) = some s₁ := rfl
  obtain ⟨cq, handler, nextHandler, hwire⟩ := wire_eq (initial : State cfg τ) 0 0 wired
  have hs₁ : s₁ = { (initial : State cfg τ) with
      cq := cq
      handler := handler
      nextHandler := nextHandler
      frame := Function.update (fun _ => none) (.client t)
        (some (.attach ⟨0, wired.length⟩ .locking))
      nextId := 1 } := by
    have hcalled : s₁ = { ((initial : State cfg τ).wire 0 0 wired).setFrame (.client t)
        (some (.attach ⟨0, wired.length⟩ .locking)) with nextId := 1 } := if_neg hne
    rw [hcalled, hwire]
    rfl
  let u : State cfg τ := { (initial : State cfg τ) with
    cq := cq
    handler := handler
    nextHandler := nextHandler
    servers := [⟨0, wired.length⟩]
    frame := Function.update (fun _ => none) (.client t) none
    nextId := 1 }
  have hattach : (contextSystem cfg τ).exec s₁ (List.replicate 4 (go (.client t))) = some u := by
    simp [System.exec, contextSystem, State.step, go, apiStep, attachStep, setFrame, u, hs₁,
      initial]
  have hr : (contextSystem cfg τ).Reachable u := (reachable_step (.init rfl) hcall).leads
    (System.leads_of_exec (fun _ _ => trivial) hattach)
  refine ⟨u, ⟨hr, rfl, rfl, rfl, rfl, rfl, Function.update_eq_self_iff.mpr rfl⟩, rfl,
    fun j l hj => ?_⟩
  obtain ⟨first, -, -, honce⟩ := once_of_call (.init rfl) (step_spec hcall).2 hj
  have hpending : (s₁.cq (.server 0 j)).pending = _ := honce.1
  have hcq : u.cq = s₁.cq := by rw [hs₁]
  rw [hcq, hpending, List.length_map, List.length_range]

/-- A client runs the context. -/
theorem rest_of_calm (t : τ) (h : s.Calm) : ∃ s', (contextSystem cfg τ).Reachable s' ∧
    s'.AtRest ∧ s'.cq = s.cq ∧ s'.servers = s.servers := by
  let u : State cfg τ := { s.setFrame (.client t) (some (.runWhile (.spawning 0))) with
    state := .Running }
  have hrun : (contextSystem cfg τ).exec s
      (.call (.client t) .runWhile :: List.replicate 3 (go (.client t))) = some u := by
    simp [System.exec, contextSystem, State.step, MayCall, h.going, h.frame, begin, go, apiStep,
      runStep, h.padlock, h.state, ExecutionState.setState, setFrame, u]
  have hr : (contextSystem cfg τ).Reachable u :=
    h.reachable.leads (System.leads_of_exec (fun _ _ => trivial) hrun)
  exact rest_of_spawning (t := t) (s := u) cfg.nThreads (Nat.zero_add _) hr h.going h.created
    h.worker (congrArg (Function.update · _ _) h.frame)

/-! ### When a queue is starved -/

/-- The queues in `cqs_`, of which there are more than threads. -/
theorem starves_own (t : τ) (hlt : cfg.nThreads < cfg.nCqs) :
    ∃ s : State cfg τ, (contextSystem cfg τ).Reachable s ∧ s.Starves 0 := by
  have hcalls : cfg.nCqs * cfg.nCqs ≤ 2 ^ 64 := by
    have hle := Nat.mul_le_mul cfg.nCqs_le cfg.nCqs_le
    rwa [unsignedSize, ← Nat.pow_add] at hle
  obtain ⟨s₁, hcalm, hservers₁, -, hcount⟩ := calm_posts cfg t (cfg.nCqs * cfg.nCqs) hcalls
  obtain ⟨s, hr, hrest, hcq, hservers⟩ := rest_of_calm t hcalm
  have hlength : ∀ j < cfg.nCqs, (s.cq (.own j)).pending.length = cfg.nCqs := by
    intro j hj
    rw [hcq, hcount j hj, Nat.count_modEq_card _ cfg.nCqs_pos, Nat.mul_mod_left,
      Nat.mul_div_cancel _ cfg.nCqs_pos]
    simp
  obtain ⟨e, he⟩ := List.exists_mem_of_length_pos
    ((hlength _ hlt).symm ▸ cfg.nCqs_pos : 0 < (s.cq (.own cfg.nThreads)).pending.length)
  have hbusy : s.Busy 0 e (s.queueAt 0 cfg.nThreads) := by
    refine ⟨hrest, he, by rw [hservers, hservers₁]; rfl, hlt.le, cfg.nCqs_le, fun w hw heq => ?_,
      fun k' hk' => absurd hk' (Nat.not_lt_zero _)⟩
    exact hw.ne (queueAt_inj heq)
  exact ⟨s, hr, starves_of_busy hlt hbusy fun w hw => (hlength w (hw.trans hlt)).ge⟩

/-- The work queues of a server, of which there are more than threads. -/
theorem starves_server (t : τ) {n : ℕ} (hlt : cfg.nThreads < n) (hfit : n ≤ unsignedSize) :
    ∃ s : State cfg τ, (contextSystem cfg τ).Reachable s ∧ 0 < s.servers.length ∧
      s.setSize 1 = n ∧ s.Starves 1 := by
  have hne : List.replicate n (List.replicate n true) ≠ [] := by
    rw [Ne, List.replicate_eq_nil_iff]
    omega
  obtain ⟨s₁, hcalm, hservers₁, hlength₁⟩ := calm_make cfg t hne
  rw [List.length_replicate] at hservers₁
  obtain ⟨s, hr, hrest, hcq, hservers⟩ := rest_of_calm t hcalm
  rw [hservers₁] at hservers
  have hsize : s.setSize 1 = n := by rw [setSize, hservers]; rfl
  have hqueue : ∀ j, s.queueAt 1 j = .server 0 j := fun j => by rw [queueAt, hservers]; rfl
  have hlength : ∀ j < n, (s.cq (s.queueAt 1 j)).pending.length = n := by
    intro j hj
    rw [hqueue, hcq, hlength₁ j (List.replicate n true) (by simp [hj]), List.length_replicate]
  obtain ⟨e, he⟩ := List.exists_mem_of_length_pos
    ((hlength _ hlt).symm ▸ Nat.zero_lt_of_lt hlt :
      0 < (s.cq (s.queueAt 1 cfg.nThreads)).pending.length)
  have hbusy : s.Busy 1 e (s.queueAt 1 cfg.nThreads) := by
    refine ⟨hrest, he, by rw [hservers]; rfl, hsize ▸ hlt.le, hsize ▸ hfit, fun w hw heq => ?_,
      fun k' hk' j => ?_⟩
    · exact hw.ne (queueAt_inj heq)
    · obtain rfl : k' = 0 := by omega
      rw [hqueue]
      simp [queueAt]
  refine ⟨s, hr, by rw [hservers]; exact Nat.one_pos, hsize, ?_⟩
  exact starves_of_busy (hsize ▸ hlt) hbusy fun w hw => by rw [hsize, hlength w (hw.trans hlt)]

/-- **When a busy queue starves no other one**: exactly when there are at most as many queues in the
set as threads, for the queues in `cqs_` as for the work queues of a server. -/
theorem never_starves_iff (t : τ) :
    ((∀ s : State cfg τ, (contextSystem cfg τ).Reachable s → ¬ s.Starves 0) ↔
      cfg.nCqs ≤ cfg.nThreads) ∧
    ∀ n ≤ unsignedSize,
      ((∀ s : State cfg τ, (contextSystem cfg τ).Reachable s → ∀ k < s.servers.length,
        s.setSize (k + 1) = n → ¬ s.Starves (k + 1)) ↔ n ≤ cfg.nThreads) := by
  refine ⟨⟨fun hnever => ?_, fun hle s _ => ?_⟩, fun n hfit => ⟨fun hnever => ?_,
    fun hle s _ k hk hsize => ?_⟩⟩
  · by_contra hlt
    obtain ⟨s, hr, hstarves⟩ := starves_own t (not_le.mp hlt)
    exact hnever s hr hstarves
  · exact not_starves_of_le (Nat.zero_le _) hle cfg.nCqs_le
  · by_contra hlt
    obtain ⟨s, hr, hpos, hsize, hstarves⟩ := starves_server t (not_le.mp hlt) hfit
    exact hnever s hr 0 hpos hsize hstarves
  · exact not_starves_of_le hk (hsize.trans_le hle) (hsize.trans_le hfit)

/-- One thread, two queues. -/
def twoQueues : Config := ⟨1, 2, Nat.one_pos, Nat.two_pos, Nat.le_of_ble_eq_true rfl⟩

/-- They starve, and the one work queue of a server does not. -/
theorem never_starves_iff_twoQueues :
    (¬ ∀ s : State twoQueues Unit, (contextSystem twoQueues Unit).Reachable s → ¬ s.Starves 0) ∧
    ∀ s : State twoQueues Unit, (contextSystem twoQueues Unit).Reachable s →
      ∀ k < s.servers.length, s.setSize (k + 1) = 1 → ¬ s.Starves (k + 1) :=
  ⟨fun hnever => absurd ((never_starves_iff ()).1.mp hnever) (by decide),
    ((never_starves_iff ()).2 1 (by decide)).mpr (by decide)⟩

/-- A client posts three calls: the first and the third one go to queue `0`. -/
def threePosts : List (Act Unit) :=
  (List.replicate 3 (.call (.client ()) .postRpc :: List.replicate 4 (go (.client ())))).flatten

/-- The only worker takes an event from queue `0` in each of its two passes; the one in queue `1`
stays pending. -/
theorem exists_starved_queue : ¬ ∀ (cfg : Config) (s : State cfg Unit) (k : ℕ),
    (contextSystem cfg Unit).Reachable s → k ≤ s.servers.length → ¬ s.Starves k := by
  intro hall
  let s := ((contextSystem twoQueues Unit).exec .initial (threePosts ++ runCalls)).get (by decide)
  have hs : (contextSystem twoQueues Unit).Reachable s :=
    System.reachable_of_exec rfl (Option.some_get _).symm
  let waits (p : State twoQueues Unit × Watch) (_ : Act Unit) : Bool :=
    .inflightRpc 1 ∈ (p.1.cq (.own 1)).pending
  let p := ((watchedSystem twoQueues Unit).execWhile waits (s, .start)
    (List.replicate 20 (.work 0 ⟨false, .gotEvent 0 true, true, false, .finished⟩))).get
    (by decide)
  have hwaits : ∀ p a, waits p a = true → Waits (.inflightRpc 1) (.own 1) p a :=
    fun p _ h => of_decide_eq_true (p := .inflightRpc 1 ∈ (p.1.cq (.own 1)).pending) h
  have hl : (watchedSystem twoQueues Unit).Leads (Waits (.inflightRpc 1) (.own 1)) (s, .start) p :=
    System.leads_of_execWhile hwaits (Option.some_get _).symm
  have hpasses : p.2.passes 0 = [[.own 0], [.own 0]] := by decide
  have hend : .inflightRpc 1 ∈ (p.1.cq (.own 1)).pending := by decide
  have hsize : s.setSize 0 = 2 := rfl
  clear_value p s
  refine hall twoQueues s 0 hs (Nat.zero_le _) ⟨1, hsize ▸ Nat.one_lt_two, .inflightRpc 1, p.1, p.2,
    hl, hend, fun w hw => ⟨p.2.passes w, List.infix_rfl, ?_⟩⟩
  obtain rfl : w = 0 := Nat.lt_one_iff.mp hw
  rw [hpasses, hsize]
  exact ⟨rfl, by simp [queueAt]⟩

end State

end Sgrpc
