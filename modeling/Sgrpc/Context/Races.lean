import Sgrpc.Context.Attach
import Sgrpc.Context.HandlerPlaces
import Sgrpc.Context.Padlock

/-!
# Who touches what

Four kinds of data of a context are neither atomic nor behind a lock of their own: `servers_`,
`threads_`, `notifications_`, and the handlers of servers. `accesses` says which of them the next
step of a thread reads or writes, as the source has it: `servers_` is written under `padlock_` in
`attach_server` and read without it by the workers and by `stop`, `threads_` is used by `run_while`
and by `stop`, and nothing is locked there.

No two threads are ever about to access the same of them, one of them writing (`race_free`); for
`threads_` this is so in the runs in which `stop` is called after `run_while` has returned.
-/

namespace Sgrpc

open Interleaving

/-- Shared data that is not atomic. -/
inductive Member where
  | servers
  | threads
  | notifications
  /-- The `n`-th `ServerRpcHandler` made. -/
  | handler (n : ℕ)
  deriving DecidableEq

inductive Access where
  | read
  | write
  deriving DecidableEq

namespace WorkerPc

/-- What the next step of a worker accesses. The loop over `servers_` goes on in the `complete`
that it has called. A handler touches itself until it has handed its work on, and in its work. -/
def accesses : WorkerPc → List (Access × Member)
  | .polling _ _ _ => [(.read, .servers)]
  | .completing _ _ _ (.handler h _ .entered) | .completing _ _ _ (.handler h _ .armed) =>
      [(.read, .servers), (.write, .handler h)]
  | .completing _ _ _ _ => [(.read, .servers)]
  | .running ⟨_, .finish h⟩ | .executing (⟨_, .finish h⟩ :: _) => [(.write, .handler h)]
  | _ => []

end WorkerPc

namespace State

variable {cfg : Config} {τ : Type*} {s s' : State cfg τ} {a : Act τ} {t u : Tid τ}

/-- What the next step in a member function, or at the end of a detached work, accesses. -/
def callAccesses (s : State cfg τ) : Frame → List (Access × Member)
  | .runWhile (.spawning i) => if i < cfg.nThreads then [(.write, .threads)] else []
  | .runWhile (.storing _) => [(.write, .threads)]
  | .stop (.halting k) =>
      if k < s.allQueues.length then [(.read, .servers)]
      else [(.read, .servers), (.read, .threads)]
  | .stop (.joining _ _) | .stop .clearing => [(.write, .threads)]
  | .stop .swapping => [(.write, .notifications)]
  | .stop (.registering _ .pushing _) => [(.write, .notifications)]
  | .attach _ .pushing => [(.write, .servers)]
  | .notify _ .pushing => [(.write, .notifications)]
  | .work h => [(.write, .handler h)]
  | _ => []

/-- What the next step of the thread accesses. -/
def accesses (s : State cfg τ) (t : Tid τ) : List (Access × Member) :=
  match s.frame t, t with
  | some f, _ => s.callAccesses f
  | none, .worker w => (s.worker w).accesses
  | none, .client _ => []

/-- While a thread is about to write, no other is about to access. -/
def RaceFree (s : State cfg τ) (m : Member) : Prop :=
  ∀ t u, t ≠ u → (.write, m) ∈ s.accesses t → ∀ k, (k, m) ∉ s.accesses u

/-! ### Who accesses what -/

theorem mem_accesses {x : Access × Member} (h : x ∈ s.accesses t) :
    (∃ f, s.frame t = some f ∧ x ∈ s.callAccesses f) ∨
      ∃ w, t = .worker w ∧ x ∈ (s.worker w).accesses := by
  unfold accesses at h
  split at h
  · next f hf => exact Or.inl ⟨f, hf, h⟩
  · next w hf => exact Or.inr ⟨w, rfl, h⟩
  · cases h

/-- `servers_` is written by `attach_server`, and read by workers and by `stop`. -/
theorem mem_callAccesses_servers {f : Frame} {k : Access} (h : (k, .servers) ∈ s.callAccesses f) :
    (∃ server, f = .attach server .pushing) ∨ (k = .read ∧ ∃ i, f = .stop (.halting i)) := by
  unfold callAccesses at h
  split at h
  case h_3 i =>
    refine Or.inr ⟨?_, i, rfl⟩
    split at h <;> simpa using h
  case h_8 server => exact Or.inl ⟨server, rfl⟩
  case h_1 => split at h <;> simp at h
  all_goals simp at h

/-- `threads_` is used by the `run_while` and the `stop` that have won. -/
theorem mem_callAccesses_threads {f : Frame} {k : Access} (h : (k, .threads) ∈ s.callAccesses f) :
    (∃ pc, f = .runWhile pc ∧ pc.Won) ∨ ∃ pc, f = .stop pc ∧ pc.Won := by
  unfold callAccesses at h
  split at h
  case h_1 | h_2 => exact Or.inl ⟨_, rfl, trivial⟩
  case h_3 | h_4 | h_5 => exact Or.inr ⟨_, rfl, trivial⟩
  all_goals simp at h

/-- `notifications_` is used under `padlock_`. -/
theorem mem_callAccesses_notifications {f : Frame} {k : Access}
    (h : (k, .notifications) ∈ s.callAccesses f) : f.Locked := by
  unfold callAccesses at h
  split at h
  case h_6 | h_7 | h_9 => trivial
  case h_1 | h_3 => split at h <;> simp at h
  all_goals simp at h

/-- A handler is accessed at the end of its detached work. -/
theorem mem_callAccesses_handler {f : Frame} {k : Access} {n : ℕ}
    (h : (k, .handler n) ∈ s.callAccesses f) : f = .work n := by
  unfold callAccesses at h
  split at h
  case h_10 h' =>
    obtain ⟨-, rfl⟩ : k = .write ∧ n = h' := by simpa using h
    rfl
  case h_1 | h_3 => split at h <;> simp at h
  all_goals simp at h

/-- A worker accesses `servers_` in a pass. -/
theorem mem_accesses_servers {pc : WorkerPc} {k : Access} (h : (k, .servers) ∈ pc.accesses) :
    k = .read ∧ pc ≠ .top := by
  unfold WorkerPc.accesses at h
  split at h <;> simp_all

/-- The place is in the hands of the thread. -/
def HeldBy (t : Tid τ) : HandlerPlace τ → Prop
  | .entered w | .armed w | .hand w => t = .worker w
  | .resumed u => t = u
  | _ => False

theorem eq_of_heldBy {P : HandlerPlace τ} (ht : HeldBy t P) (hu : HeldBy u P) : t = u := by
  cases P with
  | entered w | armed w | hand w => exact Eq.trans ht (Eq.symm hu)
  | resumed v => exact Eq.trans ht (Eq.symm hu)
  | _ => exact ht.elim

/-- A worker accesses the handlers that it holds. -/
theorem heldBy_of_worker {w n : ℕ} {k : Access} (g : HandlerLog)
    (h : (k, .handler n) ∈ (s.worker w).accesses) :
    ∃ P, n ∈ s.handlerPlaces g P ∧ HeldBy (.worker w) P := by
  cases hpc : s.worker w with
  | completing k' i c what =>
    rcases what with _ | ⟨h', isOk, _ | _ | _⟩ <;> simp [hpc, WorkerPc.accesses] at h
    · refine ⟨.entered w, ?_, rfl⟩
      simp [handlerPlaces, hpc, WorkerPc.entered, h]
    · refine ⟨.armed w, ?_, rfl⟩
      simp [handlerPlaces, hpc, WorkerPc.armed, h]
  | running f =>
    rcases f with ⟨m, _ | _ | h'⟩ <;> simp [hpc, WorkerPc.accesses] at h
    refine ⟨.hand w, ?_, rfl⟩
    simp [handlerPlaces, hpc, WorkerPc.thunks, Thunk.handler?, h]
  | executing rest =>
    rcases rest with _ | ⟨⟨m, _ | _ | h'⟩, rest⟩ <;> simp [hpc, WorkerPc.accesses] at h
    refine ⟨.hand w, ?_, rfl⟩
    simp [handlerPlaces, hpc, WorkerPc.thunks, Thunk.handler?, h]
  | polling => simp [hpc, WorkerPc.accesses] at h
  | top | stopping | checking | popping | draining | exited =>
    simp [hpc, WorkerPc.accesses] at h

/-- A thread accesses the handlers that it holds. -/
theorem heldBy_of_mem_accesses {n : ℕ} {k : Access} (g : HandlerLog)
    (h : (k, .handler n) ∈ s.accesses t) : ∃ P, n ∈ s.handlerPlaces g P ∧ HeldBy t P := by
  rcases mem_accesses h with ⟨f, hf, hx⟩ | ⟨w, rfl, hx⟩
  · obtain rfl := mem_callAccesses_handler hx
    refine ⟨.resumed t, ?_, rfl⟩
    simp [handlerPlaces, hf, resumed]
  · exact heldBy_of_worker g hx

/-! ### No races -/

variable [DecidableEq τ]

/-- `servers_` is written while the state is `Ready`, when nobody reads it. -/
theorem raceFree_servers (h : (contextSystem cfg τ).Reachable s) : s.RaceFree .servers := by
  intro t u hne hwrite k hmem
  -- the writer is in its section of `attach_server`
  obtain ⟨server, hf⟩ : ∃ server, s.frame t = some (.attach server .pushing) := by
    rcases mem_accesses hwrite with ⟨f, hf, hx⟩ | ⟨w, -, hx⟩
    · rcases mem_callAccesses_servers hx with ⟨server, rfl⟩ | ⟨hread, -⟩
      · exact ⟨server, hf⟩
      · cases hread
    · cases (mem_accesses_servers hx).1
  have hready := (attachOk_of_reachable h).ready t server hf
  rcases mem_accesses hmem with ⟨f, hf', hx⟩ | ⟨w, rfl, hx⟩
  · rcases mem_callAccesses_servers hx with ⟨server', rfl⟩ | ⟨-, i, rfl⟩
    · exact hne (eq_of_locked h hf hf' trivial trivial)
    · rw [(stopOk_of_reachable h).draining u _ hf' trivial] at hready
      cases hready
  · have hzero := ((runOk_of_reachable h).ready hready).1
    exact (mem_accesses_servers hx).2 (worker_of_not_created h (hzero ▸ Nat.zero_le w))

theorem raceFree_notifications (h : (contextSystem cfg τ).Reachable s) :
    s.RaceFree .notifications := by
  have hlocked : ∀ {t k}, (k, .notifications) ∈ s.accesses t → s.Holds t := by
    intro t k hmem
    rcases mem_accesses hmem with ⟨f, hf, hx⟩ | ⟨w, -, hx⟩
    · exact ⟨f, hf, mem_callAccesses_notifications hx⟩
    · unfold WorkerPc.accesses at hx
      split at hx <;> simp at hx
  intro t u hne hwrite k hmem
  exact hne ((padlockOk_of_reachable h).unique t u (hlocked hwrite) (hlocked hmem))

/-- A handler is in the hands of one thread. -/
theorem raceFree_handler (h : (contextSystem cfg τ).Reachable s) (n : ℕ) :
    s.RaceFree (.handler n) := by
  obtain ⟨g, hg⟩ := h.exists_observed .empty HandlerLog.see
  have hg' : (handledSystem cfg τ).Reachable (s, g) := hg
  have hlinear := (handlersOk_of_reachable hg').linear
  intro t u hne hwrite k hmem
  obtain ⟨P, hP, ht⟩ := heldBy_of_mem_accesses g hwrite
  obtain ⟨Q, hQ, hu⟩ := heldBy_of_mem_accesses g hmem
  have hPQ := hlinear.unique hP hQ
  subst hPQ
  exact hne (eq_of_heldBy ht hu)

/-- Who has called `stop` finds that `run_while` has stored its threads. -/
theorem raceFree_threads (h : (contextSystem cfg τ).ReachableUnder StopsAfterRun s) :
    s.RaceFree .threads := by
  have hwho : ∀ {t k}, (k, .threads) ∈ s.accesses t →
      (∃ pc, s.frame t = some (.runWhile pc) ∧ pc.Won) ∨
        ∃ pc, s.frame t = some (.stop pc) ∧ pc.Won := by
    intro t k hmem
    rcases mem_accesses hmem with ⟨f, hf, hx⟩ | ⟨w, -, hx⟩
    · rcases mem_callAccesses_threads hx with ⟨pc, rfl, hwon⟩ | ⟨pc, rfl, hwon⟩
      · exact Or.inl ⟨pc, hf, hwon⟩
      · exact Or.inr ⟨pc, hf, hwon⟩
    · unfold WorkerPc.accesses at hx
      split at hx <;> simp at hx
  have hrun := runOk_of_reachable h.reachable
  have hstop := stopOk_of_reachable h.reachable
  intro t u hne hwrite k hmem
  rcases hwho hwrite with ⟨pc, hf, hwon⟩ | ⟨pc, hf, hwon⟩ <;>
    rcases hwho hmem with ⟨pc', hf', hwon'⟩ | ⟨pc', hf', hwon'⟩
  · exact hne (hrun.unique t u pc pc' hf hf' hwon hwon')
  · exact (returned_of_stop h hf').2 t pc hf hwon
  · exact (returned_of_stop h hf).2 u pc' hf' hwon'
  · exact hne (hstop.unique t u pc pc' hf hf' hwon hwon')

/-! ### Nothing is written in secret -/

omit [DecidableEq τ] in
theorem accesses_of_frame {f : Frame} (hf : s.frame t = some f) :
    s.accesses t = s.callAccesses f := by
  unfold accesses
  rw [hf]

omit [DecidableEq τ] in
theorem accesses_of_idle {w : ℕ} (hw : s.frame (.worker w) = none) :
    s.accesses (.worker w) = (s.worker w).accesses := by
  unfold accesses
  rw [hw]

/-- The members after a step are those before it, but for the ones that are announced. -/
structure Announced (s s' : State cfg τ) (l : List (Access × Member)) : Prop where
  servers : s'.servers = s.servers ∨ (.write, .servers) ∈ l
  threads : s'.threads = s.threads ∨ (.write, .threads) ∈ l
  notifications : s'.notifications = s.notifications ∨ (.write, .notifications) ∈ l
  handler : ∀ n < s.nextHandler, s'.handler n = s.handler n ∨ (.write, .handler n) ∈ l

omit [DecidableEq τ] in
theorem Announced.of_eq {l : List (Access × Member)} (hservers : s'.servers = s.servers)
    (hthreads : s'.threads = s.threads) (hnotifications : s'.notifications = s.notifications)
    (hhandler : ∀ n < s.nextHandler, s'.handler n = s.handler n) : Announced s s' l :=
  ⟨.inl hservers, .inl hthreads, .inl hnotifications, fun n hn => .inl (hhandler n hn)⟩

private theorem announced_begin {c : Call} {l : List (Access × Member)} :
    Announced s (s.begin t c) l := by
  cases c with
  | postAt | resume =>
    simp only [begin]
    split <;> exact .of_eq rfl rfl rfl fun _ _ => rfl
  | makeServer wired =>
    have hold := (wiresAll_wire s.nextId wired s 0).old
    obtain ⟨cq, handler, nextHandler, hwire⟩ := wire_eq s s.nextId 0 wired
    rw [hwire] at hold
    simp only [begin, beginAttach, hwire]
    split
    · exact .of_eq rfl rfl rfl fun _ _ => rfl
    · exact .of_eq rfl rfl rfl hold
  | _ => exact .of_eq rfl rfl rfl fun _ _ => rfl

private theorem announced_loop {w : ℕ} {answer : WorkAnswer} {pc : WorkerPc}
    (hs : LoopStep s w answer pc s') : Announced s s' pc.accesses := by
  have hrest : s'.servers = s.servers ∧ s'.threads = s.threads ∧
      s'.notifications = s.notifications := by
    obtain ⟨_, _, _, _, _, _, _, _, _, _, _, _, rfl, -⟩ := loopStep_eq hs
    exact ⟨rfl, rfl, rfl⟩
  refine ⟨.inl hrest.1, .inl hrest.2.1, .inl hrest.2.2, fun n hn => ?_⟩
  cases hs with
  | @complete k i c what =>
    rcases what with ⟨⟨id⟩ | ⟨id⟩ | ⟨h⟩, isOk⟩ | ⟨h, isOk, _ | _ | _⟩
    · exact .inl rfl
    · exact .inl rfl
    · exact .inl rfl
    · rcases eq_or_ne n h with rfl | hne
      · exact .inr (by simp [WorkerPc.accesses])
      · refine .inl ?_
        simp only [completeStep]
        split
        · rfl
        · exact (Function.update_of_ne hne ..).trans (Function.update_of_ne hn.ne ..)
    · refine .inl ?_
      simp only [completeStep]
      split <;> rfl
    · exact .inl rfl
  | @run f =>
    obtain ⟨cq, suspended, hexec⟩ := execute_eq s f answer.throws answer.work
    exact .inl (by rw [hexec]; rfl)
  | @executeNext f rest =>
    obtain ⟨cq, suspended, hexec⟩ := execute_eq s f answer.throws answer.work
    exact .inl (by rw [hexec]; rfl)
  | _ => exact .inl rfl

/-- What a step changes, it has announced. -/
theorem announced_of_step (hs : Step s a s') : Announced s s' (s.accesses a.thread) := by
  cases hs with
  | call => exact announced_begin
  | @push _ _ _ _ _ pc' => cases pc' <;> exact .of_eq rfl rfl rfl fun _ _ => rfl
  | @post _ _ _ pc answer =>
    rcases answer with ⟨slot, _ | _, reenters, stopped⟩ <;>
      rcases pc with - | (_ | _) | i | can <;> exact .of_eq rfl rfl rfl fun _ _ => rfl
  | @runWhile t _ _ _ hf hrun =>
    show Announced s s' (s.accesses t)
    rw [accesses_of_frame hf]
    cases hrun with
    | store => exact ⟨.inl rfl, .inr (by simp [callAccesses]), .inl rfl, fun _ _ => .inl rfl⟩
    | _ => exact .of_eq rfl rfl rfl fun _ _ => rfl
  | @stop t _ _ _ hf hstop =>
    show Announced s s' (s.accesses t)
    rw [accesses_of_frame hf]
    cases hstop with
    | clear => exact ⟨.inl rfl, .inr (by simp [callAccesses]), .inl rfl, fun _ _ => .inl rfl⟩
    | swap | repush =>
      exact ⟨.inl rfl, .inl rfl, .inr (by simp [callAccesses]), fun _ _ => .inl rfl⟩
    | _ => exact .of_eq rfl rfl rfl fun _ _ => rfl
  | @attach t _ _ _ _ hf hat =>
    show Announced s s' (s.accesses t)
    rw [accesses_of_frame hf]
    cases hat with
    | push => exact ⟨.inr (by simp [callAccesses]), .inl rfl, .inl rfl, fun _ _ => .inl rfl⟩
    | _ => exact .of_eq rfl rfl rfl fun _ _ => rfl
  | @notify t _ _ _ _ hf hnot =>
    show Announced s s' (s.accesses t)
    rw [accesses_of_frame hf]
    cases hnot with
    | push => exact ⟨.inl rfl, .inl rfl, .inr (by simp [callAccesses]), fun _ _ => .inl rfl⟩
    | _ => exact .of_eq rfl rfl rfl fun _ _ => rfl
  | @workEnd t h answer =>
    obtain ⟨cq, hend⟩ := workEndStep_eq s t h answer.stopped
    rw [hend]
    exact .of_eq rfl rfl rfl fun _ _ => rfl
  | fatal => exact .of_eq rfl rfl rfl fun _ _ => rfl
  | @work w pc _ _ _ hidle hpc hloop =>
    show Announced s s' (s.accesses (.worker w))
    rw [accesses_of_idle hidle, hpc]
    exact announced_loop hloop

/-- **No data races**: in every interleaving, while a thread is about to write to `servers_`, to
`notifications_` or to a handler of a server, no other thread is about to access it; and the same
holds of `threads_` when `stop` is called after `run_while` has returned. Each step changes only
what it is about to write. -/
theorem race_free (h : (contextSystem cfg τ).Reachable s) :
    (∀ m, (m = .threads → (contextSystem cfg τ).ReachableUnder StopsAfterRun s) →
      s.RaceFree m) ∧
    ∀ a s', (contextSystem cfg τ).step s a = some s' → Announced s s' (s.accesses a.thread) := by
  refine ⟨fun m hm => ?_, fun a s' hs => announced_of_step (step_spec hs).2⟩
  cases m with
  | servers => exact raceFree_servers h
  | threads => exact raceFree_threads (hm rfl)
  | notifications => exact raceFree_notifications h
  | handler n => exact raceFree_handler h n

/-- The client joins the worker, which polls the queues. -/
theorem race_free_stopCalls : ∃ s : State oneThread Unit,
    (.write, .threads) ∈ s.accesses (.client ()) ∧ (.read, .servers) ∈ s.accesses (.worker 0) ∧
      ∀ m, s.RaceFree m := by
  let S := contextSystem oneThread Unit
  let s₁ := (S.execWhile callsNoStop .initial (runCalls ++ [turn false])).get (by decide)
  have hs₁ : S.ReachableUnder StopsAfterRun s₁ :=
    System.ReachableUnder.execWhile stopsAfterRun_of_callsNoStop (.init rfl)
      (Option.some_get _).symm
  have hidle : ∀ t, s₁.frame t = none := by
    rintro (⟨⟩ | w) <;> rfl
  have hret : s₁.RunReturned := by
    refine ⟨by decide, fun t pc hf => ?_⟩
    rw [hidle t] at hf
    cases hf
  let s₂ := (S.step s₁ (.call (.client ()) .stop)).get (by decide)
  have hs₂ : S.ReachableUnder StopsAfterRun s₂ :=
    hs₁.step (fun _ _ => hret) (Option.some_get _).symm
  let s := (S.execWhile callsNoStop s₂ (List.replicate 4 (go (.client ())))).get (by decide)
  have hs : S.ReachableUnder StopsAfterRun s :=
    System.ReachableUnder.execWhile stopsAfterRun_of_callsNoStop hs₂ (Option.some_get _).symm
  exact ⟨s, by decide, by decide, fun m => (race_free hs.reachable).1 m fun _ => hs⟩

end State

end Sgrpc
