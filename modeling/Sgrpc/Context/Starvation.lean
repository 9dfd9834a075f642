import Mathlib.Data.List.Infix
import Sgrpc.Context.Passes

/-!
# Whether a busy queue starves another one

A pass of a worker stops on a set of queues with the first event. Worker `w` begins with queue
`w % q` of a set of `q` queues in every pass, so a worker with a queue of its own polls it in every
pass, whatever the others hold. An observer of the run notes the passes of every worker (`Watch`).
With at least as many workers as queues no queue of the set is starved; with fewer, the queues that
the workers begin with may keep them busy for as long as they hold events (`never_starves_iff`).
-/

namespace Sgrpc

open Interleaving

/-! ### Watching the passes -/

/-- What an observer has seen of the passes of each worker. -/
structure Watch where
  /-- The queues polled so far in the pass that the worker is in, `none` when the pass had begun
  before the observer came. -/
  current : ℕ → Option (List QueueId)
  /-- The passes that the worker has begun and completed, each with the queues it has polled. -/
  passes : ℕ → List (List QueueId)

namespace Watch

/-- Nothing has been seen yet. -/
def start : Watch := ⟨fun _ => none, fun _ => []⟩

/-- Worker `w` leaves the head of its loop. -/
def enter (o : Watch) (w : ℕ) : Watch :=
  { o with current := Function.update o.current w (some []) }

/-- Worker `w` polls the queue. -/
def poll (o : Watch) (w : ℕ) (q : QueueId) : Watch :=
  { o with current := Function.update o.current w ((o.current w).map (· ++ [q])) }

/-- Worker `w` comes back to the head of its loop. -/
def complete (o : Watch) (w : ℕ) : Watch where
  current := Function.update o.current w none
  passes := Function.update o.passes w (o.passes w ++ (o.current w).toList)

end Watch

namespace State

variable {cfg : Config} {τ : Type*} {s s' : State cfg τ} {w k : ℕ}

/-- The queue that the next step of worker `w` polls, if it polls one. -/
def polledQueue (s : State cfg τ) (w : ℕ) : Option QueueId :=
  match s.worker w with
  | .polling k i c =>
      if i < s.setSize k ∧ c.current = c.executed then
        some (s.queueAt k (nextCqIndex w i (s.setSize k)))
      else none
  | _ => none

end State

/-- What has been seen after a step of the context. -/
def Watch.see {cfg : Config} {τ : Type*} (o : Watch) (s : State cfg τ) (a : Act τ)
    (s' : State cfg τ) : Watch :=
  match a with
  | .work w _ =>
      if s.worker w = .top then o.enter w
      else if s'.worker w = .top then o.complete w
      else
        match s.polledQueue w with
        | some q => o.poll w q
        | none => o
  | _ => o

/-- The context with an observer of its passes. -/
def watchedSystem (cfg : Config) (τ : Type*) [DecidableEq τ] :
    System (State cfg τ × Watch) (Act τ) :=
  (contextSystem cfg τ).observed .start Watch.see

namespace State

variable {cfg : Config} {τ : Type*} [DecidableEq τ] {s s' : State cfg τ} {o : Watch} {w k j : ℕ}
  {q : QueueId} {e : Event}

/-- Set `k` has a queue in which an event stays pending while every worker completes as many
consecutive passes as the set has queues, none of which polls that queue. -/
def Starves (s : State cfg τ) (k : ℕ) : Prop :=
  ∃ j < s.setSize k, ∃ e s' o,
    (watchedSystem cfg τ).Leads (fun p _ => e ∈ (p.1.cq (s.queueAt k j)).pending)
      (s, .start) (s', o) ∧
    e ∈ (s'.cq (s.queueAt k j)).pending ∧
    ∀ w < cfg.nThreads, ∃ l, l <:+: o.passes w ∧ l.length = s.setSize k ∧
      ∀ pass ∈ l, s.queueAt k j ∉ pass

/-! ### A queue that a worker begins with -/

/-- A pass that is at this point will still poll the first queue of set `k`, or has polled `q`. -/
def Aims (k : ℕ) (q : QueueId) (polls : List QueueId) : WorkerPc → Prop
  | .polling k' i c => k' < k ∨ (k' = k ∧ i = 0 ∧ c.current = c.executed) ∨ q ∈ polls
  | .completing k' _ _ _ => k' < k ∨ q ∈ polls
  | .top | .checking _ | .popping _ | .running _ => q ∈ polls
  | .stopping | .draining _ | .executing _ | .exited => True

/-- What the observer has seen of a worker that begins with queue `q` of set `k`. -/
structure Served (k : ℕ) (q : QueueId) (w : ℕ) (s : State cfg τ) (o : Watch) : Prop where
  set_le : k ≤ s.servers.length
  first : q = s.queueAt k (nextCqIndex w 0 (s.setSize k))
  pos : 0 < s.setSize k
  current : s.terminated = false → ∀ polls, o.current w = some polls → Aims k q polls (s.worker w)
  passes : ∀ pass ∈ o.passes w, q ∈ pass

omit [DecidableEq τ] in
theorem aims_append {polls polls' : List QueueId} {pc : WorkerPc} (h : Aims k q polls pc) :
    Aims k q (polls ++ polls') pc := by
  have hmem : q ∈ polls → q ∈ polls ++ polls' := List.mem_append_left polls'
  cases pc with
  | polling => exact h.imp_right (Or.imp_right hmem)
  | completing => exact h.imp_right hmem
  | top | checking | popping | running => exact hmem h
  | stopping | draining | executing | exited => trivial

omit [DecidableEq τ] in
/-- A pass that begins will poll `q`. -/
theorem aims_startPass {polls : List QueueId} : Aims k q polls (startPass cfg) := by
  rcases Nat.eq_zero_or_pos k with rfl | hk
  · exact Or.inr (Or.inl ⟨rfl, rfl, rfl⟩)
  · exact Or.inl hk

omit [DecidableEq τ] in
/-- A poll: when it is the first one of set `k`, it is that of `q`. -/
theorem aims_poll {polls : List QueueId} {k' i : ℕ} {c : PassCounts}
    (hfirst : q = s.queueAt k (nextCqIndex w 0 (s.setSize k)))
    (h : Aims k q polls (.polling k' i c)) :
    k' < k ∨ q ∈ polls ++ [s.queueAt k' (nextCqIndex w i (s.setSize k'))] := by
  rcases h with hlt | ⟨rfl, rfl, -⟩ | hmem
  · exact Or.inl hlt
  · exact Or.inr (List.mem_append_right _ (List.mem_singleton.mpr hfirst))
  · exact Or.inr (List.mem_append_left _ hmem)

omit [DecidableEq τ] in
/-- The pass leaves set `k'`. -/
theorem aims_leaveSet {polls : List QueueId} {k' i : ℕ} {c : PassCounts} (hpos : 0 < s.setSize k)
    (hend : ¬ (i < s.setSize k' ∧ c.current = c.executed)) (h : Aims k q polls (.polling k' i c)) :
    k' < k ∨ q ∈ polls := by
  rcases h with hlt | ⟨rfl, rfl, hc⟩ | hmem
  · exact Or.inl hlt
  · exact absurd ⟨hpos, hc⟩ hend
  · exact Or.inr hmem

/-- A step of the pass. -/
theorem aims_loop {polls : List QueueId} {answer : WorkAnswer} (hk : k ≤ s.servers.length)
    (hfirst : q = s.queueAt k (nextCqIndex w 0 (s.setSize k))) (hpos : 0 < s.setSize k)
    {pc : WorkerPc} (hpc : s.worker w = pc) (htop : pc ≠ .top) (h : Aims k q polls pc)
    (hs : LoopStep s w answer pc s') :
    Aims k q (polls ++ (s.polledQueue w).toList) (s'.worker w) := by
  have hmove : ∀ {pc'}, s'.worker = Function.update s.worker w pc' →
      Aims k q (polls ++ (s.polledQueue w).toList) pc' →
      Aims k q (polls ++ (s.polledQueue w).toList) (s'.worker w) := by
    intro pc' hworker haims
    rwa [hworker, Function.update_self]
  have hpoll : ∀ {k' i c}, pc = .polling k' i c → i < s.setSize k' → c.current = c.executed →
      s.polledQueue w = some (s.queueAt k' (nextCqIndex w i (s.setSize k'))) := by
    rintro k' i c rfl hi hc
    simp only [polledQueue, hpc]
    exact if_pos ⟨hi, hc⟩
  cases hs with
  | stop | pass => exact absurd rfl htop
  | stopped => exact hmove rfl aims_startPass
  | pollNone hi hc | pollShutdown hi hc =>
    refine hmove rfl ?_
    rw [hpoll rfl hi hc]
    exact (aims_poll hfirst h).imp_right Or.inr
  | pollEvent hi hc =>
    refine hmove rfl ?_
    rw [hpoll rfl hi hc]
    exact aims_poll hfirst h
  | @nextSet k' i c hend hk' =>
    refine hmove rfl (aims_append ?_)
    rcases aims_leaveSet hpos hend h with hlt | hmem
    · rcases Nat.lt_or_ge (k' + 1) k with hlt' | hge
      · exact Or.inl hlt'
      · exact Or.inr (Or.inl ⟨by omega, rfl, rfl⟩)
    · exact Or.inr (Or.inr hmem)
  | polled hend hk' =>
    refine hmove rfl (aims_append ?_)
    rcases aims_leaveSet hpos hend h with hlt | hmem
    · omega
    · exact hmem
  | @complete k' i c what =>
    obtain ⟨pc', hpc', rfl | ⟨what', rfl⟩⟩ := worker_completeStep s w k' i c what
    · exact hmove hpc' (aims_append (Or.imp_right Or.inr h))
    · exact hmove hpc' (aims_append h)
  | run => exact hmove worker_execute (aims_append h)
  | executeNext => exact hmove worker_execute trivial
  | stay | popCall | pop | popped | missed => exact hmove rfl (aims_append h)
  | leave | ejectCall | eject | ejected | exit => exact hmove rfl trivial

/-- A pass that ends at the head of the loop has polled `q`. -/
theorem mem_of_complete {polls : List QueueId} {answer : WorkAnswer} {pc : WorkerPc}
    (htop : pc ≠ .top) (h : Aims k q polls pc) (hs : LoopStep s w answer pc s')
    (htop' : s'.worker w = .top) : q ∈ polls := by
  have hpc : ∀ {pc'}, s'.worker = Function.update s.worker w pc' → pc' = .top := by
    intro pc' hworker
    rwa [hworker, Function.update_self] at htop'
  cases hs with
  | missed | run => exact h
  | complete =>
    obtain ⟨pc', hpc', rfl | ⟨what', rfl⟩⟩ := worker_completeStep s w _ _ _ _
    · cases hpc hpc'
    · cases hpc hpc'
  | executeNext => cases hpc worker_execute
  | stop | pass => exact absurd rfl htop
  | stopped | pollNone | pollShutdown | pollEvent | nextSet | polled | leave | stay | popCall | pop
  | popped | ejectCall | eject | ejected | exit => cases hpc rfl

/-- A set that a pass goes through stays as it is. -/
theorem set_of_step {a : Act τ} (hs : Step s a s') (hk : k ≤ s.servers.length) :
    k ≤ s'.servers.length ∧ s'.setSize k = s.setSize k ∧ ∀ j, s'.queueAt k j = s.queueAt k j := by
  obtain ⟨ns, hns⟩ := servers_append_of_step hs
  refine ⟨by rw [hns, List.length_append]; omega, ?_⟩
  cases k with
  | zero => exact ⟨rfl, fun _ => rfl⟩
  | succ k =>
    simp only [setSize, queueAt, hns, List.getD_append _ _ _ k hk]
    exact ⟨trivial, fun _ => trivial⟩

omit [DecidableEq τ] in
/-- A step of another thread, or in a member function, is not noted. -/
theorem see_of_ne (o : Watch) (s s' : State cfg τ) {a : Act τ}
    (hne : ∀ answer, a ≠ .work w answer) :
    (o.see s a s').current w = o.current w ∧ (o.see s a s').passes w = o.passes w := by
  cases a with
  | call | api => exact ⟨rfl, rfl⟩
  | work v answer =>
    have hv : w ≠ v := by
      rintro rfl
      exact hne answer rfl
    simp only [Watch.see]
    split
    · exact ⟨Function.update_of_ne hv _ _, rfl⟩
    · split
      · exact ⟨Function.update_of_ne hv _ _, Function.update_of_ne hv _ _⟩
      · split
        · exact ⟨Function.update_of_ne hv _ _, rfl⟩
        · exact ⟨rfl, rfl⟩

omit [DecidableEq τ] in
/-- Inside a pass the polls are noted. -/
theorem see_inside (o : Watch) (answer : WorkAnswer) (htop : s.worker w ≠ .top)
    (htop' : s'.worker w ≠ .top) :
    (o.see s (.work w answer) s').current w =
        (o.current w).map (· ++ (s.polledQueue w).toList) ∧
      (o.see s (.work w answer) s').passes = o.passes := by
  simp only [Watch.see, if_neg htop, if_neg htop']
  cases s.polledQueue w with
  | some q => exact ⟨Function.update_self _ _ _, rfl⟩
  | none =>
    refine ⟨?_, rfl⟩
    cases o.current w <;> simp

/-- What has been seen of the worker after a step: every pass it has completed polled `q`. -/
theorem Served.step {a : Act τ} (h : Served k q w s o) (hgo : s.terminated = false)
    (hs : Step s a s') : Served k q w s' (o.see s a s') := by
  obtain ⟨hle, hsize, hqueue⟩ := set_of_step hs h.set_le
  suffices hseen : (s'.terminated = false → ∀ polls, (o.see s a s').current w = some polls →
        Aims k q polls (s'.worker w)) ∧ ∀ pass ∈ (o.see s a s').passes w, q ∈ pass from
    ⟨hle, by rw [hsize, hqueue]; exact h.first, hsize ▸ h.pos, hseen.1, hseen.2⟩
  have hbefore := h.current hgo
  by_cases hother : ∀ answer, a ≠ .work w answer
  · obtain ⟨hcurrent, hpasses⟩ := see_of_ne o s s' hother
    have hworker : s'.worker w = s.worker w := by
      rcases worker_of_step hs with heq | ⟨v, answer, pc', rfl, -, heq⟩
      · rw [heq]
      · have hv : w ≠ v := by
          rintro rfl
          exact hother answer rfl
        rw [heq, Function.update_of_ne hv]
    rw [hcurrent, hpasses, hworker]
    exact ⟨fun _ => hbefore, h.passes⟩
  · push Not at hother
    obtain ⟨answer, rfl⟩ := hother
    rcases fatal_or_loopStep hs with ⟨-, -, rfl⟩ | hloop
    · -- no pass is completed
      have hpasses :
          (o.see s (.work w answer) { s with terminated := true }).passes = o.passes := by
        by_cases htop : s.worker w = .top
        · simp only [Watch.see, if_pos htop, Watch.enter]
        · exact (see_inside o answer htop htop).2
      exact ⟨fun hno => (by cases hno), fun pass hpass => h.passes pass (hpasses ▸ hpass)⟩
    generalize hpc : s.worker w = pc at hloop
    have haims : ∀ polls, o.current w = some polls → Aims k q polls pc := hpc ▸ hbefore
    by_cases htop : pc = .top
    · simp only [Watch.see, hpc, if_pos htop, Watch.enter, Function.update_self]
      refine ⟨fun _ => ?_, h.passes⟩
      rintro _ ⟨⟩
      subst htop
      cases hloop with
      | stop => simp [setWorker, Aims]
      | pass => simpa [setWorker] using aims_startPass
    · by_cases htop' : s'.worker w = .top
      · simp only [Watch.see, hpc, if_neg htop, if_pos htop', Watch.complete, Function.update_self]
        refine ⟨fun _ => by simp, fun pass hpass => ?_⟩
        rcases List.mem_append.mp hpass with hold | hnew
        · exact h.passes pass hold
        · exact mem_of_complete htop (haims pass (Option.mem_toList.mp hnew)) hloop htop'
      · obtain ⟨hcurrent, hpasses⟩ := see_inside o answer (hpc ▸ htop) htop'
        rw [hcurrent, hpasses]
        refine ⟨fun _ polls hpolls => ?_, h.passes⟩
        obtain ⟨polls', hpolls', rfl⟩ := Option.map_eq_some_iff.mp hpolls
        exact aims_loop h.set_le h.first h.pos hpc htop (haims polls' hpolls') hloop

/-- **With as many workers as queues, no queue of a set is starved.** -/
theorem not_starves_of_le (hk : k ≤ s.servers.length) (hle : s.setSize k ≤ cfg.nThreads)
    (hfit : s.setSize k ≤ unsignedSize) : ¬ s.Starves k := by
  rintro ⟨j, hj, e, s', o, hl, -, hpasses⟩
  have hindex : nextCqIndex j 0 (s.setSize k) = j := by
    rw [nextCqIndex, Nat.add_zero, Nat.mod_eq_of_lt (hj.trans_le hfit), Nat.mod_eq_of_lt hj]
  have hstart : Served k (s.queueAt k j) j s .start :=
    ⟨hk, by rw [hindex], Nat.zero_lt_of_lt hj, by simp [Watch.start], by simp [Watch.start]⟩
  have hend : Served k (s.queueAt k j) j s' o := by
    refine hl.invariant (I := fun p => Served k (s.queueAt k j) j p.1 p.2) hstart
      fun p a p' hI _ hs => ?_
    obtain ⟨hstep, hsee⟩ := System.step_observed_iff.mp hs
    rw [hsee]
    exact hI.step (step_spec hstep).1 (step_spec hstep).2
  -- worker `j` has completed a pass, which polled queue `j`
  obtain ⟨l, hpart, hlen, hnone⟩ := hpasses j (hj.trans_le hle)
  obtain ⟨pass, hpass⟩ := List.exists_mem_of_length_pos (hlen ▸ Nat.zero_lt_of_lt hj)
  exact hnone pass hpass (hend.passes pass (hpart.subset hpass))

end State

end Sgrpc
