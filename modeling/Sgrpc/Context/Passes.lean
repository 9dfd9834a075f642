import Mathlib.Data.List.GetD
import Sgrpc.Context.Handshake

/-!
# When a worker leaves its loop

A pass of `run_one_thread_` counts the queues it has been over and the queues that reported
`SHUTDOWN`. The two counts agree only if every queue polled was exhausted, and none was left out,
so a worker leaves its loop only when the queues in `cqs_` that its rotating index reaches are
exhausted (`PassOk`); nothing is started on them afterwards. Worker `0` reaches all of them.
-/

namespace Sgrpc

open Interleaving

namespace State

variable {cfg : Config} {τ : Type*} {s s' : State cfg τ} {w : ℕ}

/-! ### The sets of queues -/

theorem setSize_of_servers (h : s'.servers = s.servers) : s'.setSize = s.setSize := by
  funext k
  cases k with
  | zero => rfl
  | succ k => rw [setSize, setSize, h]

theorem queueAt_of_servers (h : s'.servers = s.servers) : s'.queueAt = s.queueAt := by
  funext k
  cases k with
  | zero => rfl
  | succ k =>
    funext j
    rw [queueAt, queueAt, h]

/-! ### Exhausted queues -/

/-- The first `n` queues in `cqs_` that worker `w` comes to are exhausted. -/
def OwnExhausted (s : State cfg τ) (w n : ℕ) : Prop :=
  ∀ j < n, (s.cq (.own (nextCqIndex w j cfg.nCqs))).Exhausted

/-- Nothing that a pass relies on is lost: queues in `cqs_` stay exhausted, and servers stay
attached. -/
structure Settles (s s' : State cfg τ) : Prop where
  exhausted : ∀ i, (s.cq (.own i)).Exhausted → (s'.cq (.own i)).Exhausted
  length_le : s.servers.length ≤ s'.servers.length
  setSize : ∀ k ≤ s.servers.length, s'.setSize k = s.setSize k

theorem settles_of_servers (hexh : ∀ i, (s.cq (.own i)).Exhausted → (s'.cq (.own i)).Exhausted)
    {ns : List ServerContainer} (hservers : s'.servers = s.servers ++ ns) : Settles s s' where
  exhausted := hexh
  length_le := by simp [hservers]
  setSize k hk := by
    cases k with
    | zero => rfl
    | succ k =>
      simp only [State.setSize, hservers]
      rw [List.getD_append _ _ _ k hk]

variable [DecidableEq τ] {a : Act τ}

/-- Queues in `cqs_` stay exhausted. -/
theorem exhausted_of_step (h : s.HaltOk) (hown : OwnStep s a s') {i : ℕ}
    (hi : (s.cq (.own i)).Exhausted) : (s'.cq (.own i)).Exhausted := by
  cases hown with
  | same hsame => exact (hsame.own i).symm ▸ hi
  | @create t kind id j _ _ _ hf =>
    show (Function.update s.cq (.own j) ((s.cq (.own j)).start (kind.event id))
      (.own i)).Exhausted
    rcases eq_or_ne i j with rfl | hij
    · exact absurd (h.shut i hi.1) (h.deciding t kind id _ hf trivial)
    · rw [Function.update_of_ne (by simpa using hij)]
      exact hi
  | @halt t k q =>
    show (Function.update s.cq q (s.cq q).shutdown (.own i)).Exhausted
    rcases eq_or_ne (.own i) q with hiq | hiq
    · subst hiq
      rw [Function.update_self]
      exact ⟨rfl, hi.2⟩
    · rw [Function.update_of_ne hiq]
      exact hi
  | @take w k i' m c q e isOk answer hw hlt hq he =>
    show (Function.update s.cq q { s.cq q with pending := (s.cq q).pending.eraseIdx m }
      (.own i)).Exhausted
    rcases eq_or_ne (.own i) q with hiq | hiq
    · subst hiq
      rw [hi.2] at he
      simp at he
    · rw [Function.update_of_ne hiq]
      exact hi

/-- Servers are appended. -/
theorem servers_append_of_step (hs : Step s a s') : ∃ ns, s'.servers = s.servers ++ ns := by
  rcases servers_of_step hs with heq | ⟨_, server, -, heq⟩
  · exact ⟨[], by rw [heq, List.append_nil]⟩
  · exact ⟨[server], heq⟩

theorem settles_of_step (h : s.HaltOk) (hown : OwnStep s a s') (hs : Step s a s') :
    Settles s s' := by
  obtain ⟨ns, hns⟩ := servers_append_of_step hs
  exact settles_of_servers (fun i hi => exhausted_of_step h hown hi) hns

/-! ### The counts of a pass -/

/-- A pass that is at queue `i` of the `k`-th set. -/
structure Pass (s : State cfg τ) (w k i : ℕ) (c : PassCounts) : Prop where
  le : i ≤ s.setSize k
  set_le : k ≤ s.servers.length
  count : c.shutdown + s.setSize k ≤ c.total + i
  full : c.shutdown + s.setSize k = c.total + i →
    s.OwnExhausted w (if k = 0 then i else cfg.nCqs)

/-- What a worker at this point has found. -/
def PassOk (s : State cfg τ) (w : ℕ) : WorkerPc → Prop
  | .polling k i c => s.Pass w k i c
  | .completing k i c _ => s.Pass w k i c ∧ i < s.setSize k
  | .checking c => c.shutdown = c.total → s.OwnExhausted w cfg.nCqs
  | .draining _ | .executing _ | .exited => s.OwnExhausted w cfg.nCqs
  | _ => True

omit [DecidableEq τ] in
theorem Settles.ownExhausted (hs : Settles s s') {n : ℕ} (h : s.OwnExhausted w n) :
    s'.OwnExhausted w n := fun j hj => hs.exhausted _ (h j hj)

omit [DecidableEq τ] in
theorem Settles.pass (hs : Settles s s') {k i : ℕ} {c : PassCounts} (h : s.Pass w k i c) :
    s'.Pass w k i c := by
  have hsize := hs.setSize k h.set_le
  refine ⟨hsize ▸ h.le, h.set_le.trans hs.length_le, hsize ▸ h.count, fun heq => ?_⟩
  rw [hsize] at heq
  exact hs.ownExhausted (h.full heq)

omit [DecidableEq τ] in
theorem Settles.passOk (hs : Settles s s') {pc : WorkerPc} (h : s.PassOk w pc) :
    s'.PassOk w pc := by
  cases pc with
  | polling => exact hs.pass h
  | completing k i c what =>
    refine ⟨hs.pass h.1, ?_⟩
    rw [hs.setSize k h.1.set_le]
    exact h.2
  | checking c => exact fun heq => hs.ownExhausted (h heq)
  | draining | executing | exited => exact hs.ownExhausted h
  | top | stopping | popping | running => trivial

omit [DecidableEq τ] in
theorem pass_start : s.Pass w 0 0 ⟨0, 0, cfg.nCqs, 0⟩ where
  le := Nat.zero_le _
  set_le := Nat.zero_le _
  count := by simp [setSize]
  full _ j hj := absurd hj (by simp)

omit [DecidableEq τ] in
/-- A queue that has not reported `SHUTDOWN`: the counts cannot agree any more. -/
theorem Pass.skip {k i executed : ℕ} {c : PassCounts} (h : s.Pass w k i c) (hi : i < s.setSize k) :
    s.Pass w k (i + 1) { c with executed := executed } where
  le := hi
  set_le := h.set_le
  count := Nat.le_succ_of_le h.count
  full heq := by
    have hcount := h.count
    have heq' : c.shutdown + s.setSize k = c.total + (i + 1) := heq
    omega

omit [DecidableEq τ] in
/-- A queue that has reported `SHUTDOWN`. -/
theorem Pass.shutdown {k i : ℕ} {c : PassCounts} (h : s.Pass w k i c) (hi : i < s.setSize k)
    (hex : (s.cq (s.queueAt k (nextCqIndex w i (s.setSize k)))).Exhausted) :
    s.Pass w k (i + 1) { c with shutdown := c.shutdown + 1 } where
  le := hi
  set_le := h.set_le
  count := by
    have hcount := h.count
    show c.shutdown + 1 + s.setSize k ≤ c.total + (i + 1)
    omega
  full heq := by
    have heq' : c.shutdown + 1 + s.setSize k = c.total + (i + 1) := heq
    have hfull := h.full (by omega)
    rcases Nat.eq_zero_or_pos k with rfl | hk
    · intro j hj
      rw [if_pos rfl] at hj hfull
      rcases Nat.lt_succ_iff_lt_or_eq.mp hj with hj | rfl
      · exact hfull j hj
      · exact hex
    · rw [if_neg hk.ne'] at hfull ⊢
      exact hfull

omit [DecidableEq τ] in
/-- All queues over which a pass has been are exhausted when its counts agree. -/
theorem Pass.exhausted {k i : ℕ} {c : PassCounts} (h : s.Pass w k i c)
    (heq : c.shutdown = c.total) : s.OwnExhausted w cfg.nCqs := by
  have hle := h.le
  have hcount := h.count
  have hi : i = s.setSize k := by omega
  have hfull := h.full (by omega)
  rcases Nat.eq_zero_or_pos k with rfl | hk
  · rw [if_pos rfl, hi] at hfull
    exact hfull
  · rw [if_neg hk.ne'] at hfull
    exact hfull

omit [DecidableEq τ] in
/-- The pass goes on to the next set of queues. -/
theorem Pass.next {k i : ℕ} {c : PassCounts} (h : s.Pass w k i c) (hk : k < s.servers.length) :
    s.Pass w (k + 1) 0 { c with total := c.total + s.setSize (k + 1), current := c.executed } where
  le := Nat.zero_le _
  set_le := hk
  count := by
    have hle := h.le
    have hcount := h.count
    show c.shutdown + s.setSize (k + 1) ≤ c.total + s.setSize (k + 1) + 0
    omega
  full heq := by
    have heq' : c.shutdown + s.setSize (k + 1) = c.total + s.setSize (k + 1) + 0 := heq
    rw [if_neg (Nat.succ_ne_zero k)]
    exact h.exhausted (by omega)

/-! ### Every worker -/

theorem passOk_completeStep {k i : ℕ} {c : PassCounts} {what : Completion}
    (h : s.Pass w k i c) (hi : i < s.setSize k) :
    ∃ pc', (s.completeStep w k i c what).worker = Function.update s.worker w pc' ∧
      s.PassOk w pc' := by
  obtain ⟨pc', hpc', rfl | ⟨what', rfl⟩⟩ := worker_completeStep s w k i c what
  · exact ⟨_, hpc', h.skip hi⟩
  · exact ⟨_, hpc', h, hi⟩

/-- A step of the loop leads to a point whose claim about the pass is met. -/
theorem passOk_loop {pc : WorkerPc} {answer : WorkAnswer} (h : s.PassOk w pc)
    (hs : LoopStep s w answer pc s') :
    ∃ pc', s'.worker = Function.update s.worker w pc' ∧ s.PassOk w pc' := by
  cases hs with
  | stop => exact ⟨_, rfl, trivial⟩
  | pass | stopped => exact ⟨_, rfl, pass_start⟩
  | pollNone hi => exact ⟨_, rfl, Pass.skip h hi⟩
  | pollShutdown hi _ hex => exact ⟨_, rfl, Pass.shutdown h hi hex⟩
  | pollEvent hi => exact ⟨_, rfl, h, hi⟩
  | nextSet _ hk => exact ⟨_, rfl, Pass.next h hk⟩
  | polled => exact ⟨_, rfl, fun heq => Pass.exhausted h heq⟩
  | complete => exact passOk_completeStep h.1 h.2
  | leave heq => exact ⟨_, rfl, h heq⟩
  | stay | popCall | pop | popped | missed => exact ⟨_, rfl, trivial⟩
  | run => exact ⟨_, worker_execute, trivial⟩
  | ejectCall | eject | ejected | exit => exact ⟨_, rfl, h⟩
  | executeNext => exact ⟨_, worker_execute, h⟩

theorem passOk_step (h : ∀ v, s.PassOk v (s.worker v)) (hsettles : Settles s s')
    (hs : Step s a s') (v : ℕ) : s'.PassOk v (s'.worker v) := by
  have hstay : s'.worker v = s.worker v → s'.PassOk v (s'.worker v) := by
    intro heq
    rw [heq]
    exact hsettles.passOk (h v)
  rcases loop_of_step hs with hsame | ⟨w, answer, rfl, -, -, hloop⟩
  · exact hstay (by rw [hsame.worker])
  · obtain ⟨pc', hpc', hok⟩ := passOk_loop (h w) hloop
    rcases eq_or_ne v w with rfl | hv
    · rw [hpc', Function.update_self]
      exact hsettles.passOk hok
    · exact hstay (by rw [hpc', Function.update_of_ne hv])

theorem passOk_of_reachable (h : (contextSystem cfg τ).Reachable s) (v : ℕ) :
    s.PassOk v (s.worker v) := by
  have hinv : ∀ v, s.PassOk v (s.worker v) := by
    refine h.invariant (I := fun u => ∀ v, u.PassOk v (u.worker v)) ?_
      fun u a u' hr hI _ hs => ?_
    · rintro _ rfl v
      trivial
    · have hstep := (step_spec hs).2
      exact passOk_step hI (settles_of_step (haltOk_of_reachable hr)
        (ownStep_of_step (serverHandlers_of_reachable hr) hstep) hstep) hstep
  exact hinv v

omit [DecidableEq τ] in
/-- When worker `0` has left its loop, every queue in `cqs_` is exhausted: its rotating index is
the plain one. -/
theorem exhausted_of_left (hleft : s.OwnExhausted 0 cfg.nCqs) {i : ℕ} (hi : i < cfg.nCqs) :
    (s.cq (.own i)).Exhausted := by
  have hindex : nextCqIndex 0 i cfg.nCqs = i := by
    have hsize := hi.trans_le cfg.nCqs_le
    rw [nextCqIndex, Nat.zero_add, Nat.mod_eq_of_lt hsize, Nat.mod_eq_of_lt hi]
  have hex := hleft i hi
  rwa [hindex] at hex

end State

end Sgrpc
