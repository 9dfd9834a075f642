import Sgrpc.Context.Cover
import Sgrpc.Context.HandlerPlaces
import Sgrpc.Context.Polling
import Sgrpc.RoundRobin.Slots

/-!
# The queues of servers are empty when the context has stopped

A worker leaves its loop after a pass in which every queue has reported `SHUTDOWN`. Handlers start
operations on their queues even then, but a worker that does so in a pass has executed an event in
it, and comes back. So as long as a queue has an event pending, or has not been shut down, some
worker will poll it again (`DrainOk`), and at `Stopped` the queues of the attached servers are
empty. The exception is the detached work of a handler that a worker executes after its last pass,
or that completes elsewhere when the queue has been shut down: nobody hears of the answer then, and
the handler is never deleted (`drained_of_stopped`). Handlers whose logic is executed immediately
are all deleted (`deleted_of_stopped`).
-/

namespace Sgrpc

open Interleaving
open AtomicTaskStealingQueue (PushStep PopStep EjectStep)

namespace State

variable {cfg : Config} {τ : Type*} {s s' : State cfg τ} {a : Act τ} {t : Tid τ} {w k j : ℕ}
  {g : HandlerLog}

/-! ### Queues that have been shut down -/

/-- The queue in place of `q` is shut down if that was. -/
theorem isShutdown_update {q q' : QueueId} {cq : CompletionQueue}
    (hcq : (s.cq q').isShutdown = true → cq.isShutdown = true)
    (hq : (s.cq q).isShutdown = true) : (Function.update s.cq q' cq q).isShutdown = true := by
  rcases eq_or_ne q q' with rfl | hne
  · rw [Function.update_self]
    exact hcq hq
  · rwa [Function.update_of_ne hne]

theorem isShutdown_execute {f : Thunk} {throws : Bool} {work : WorkEnd} {q : QueueId}
    (hq : (s.cq q).isShutdown = true) :
    ((s.execute f throws work).cq q).isShutdown = true := by
  rcases f with ⟨id, _ | _ | h⟩
  · exact hq
  · exact hq
  · cases work with
    | finished => exact isShutdown_update (fun hshut => hshut) hq
    | stopped | suspended => exact hq

theorem isShutdown_completeStep [DecidableEq τ] {k i : ℕ} {c : PassCounts} {what : Completion}
    {q : QueueId} (hq : (s.cq q).isShutdown = true) :
    ((s.completeStep w k i c what).cq q).isShutdown = true := by
  rcases what with ⟨⟨id⟩ | ⟨id⟩ | ⟨h⟩, isOk⟩ | ⟨h, isOk, _ | _ | _⟩
  · exact hq
  · exact hq
  · exact hq
  · simp only [completeStep]
    split
    · exact hq
    · exact isShutdown_update (fun hshut => hshut) hq
  · simp only [completeStep]
    split
    · exact isShutdown_update (fun hshut => hshut) hq
    · exact hq
  · exact hq

/-- A queue that has been shut down stays so. -/
theorem isShutdown_of_step [DecidableEq τ] (hs : Step s a s') {q : QueueId}
    (hq : (s.cq q).isShutdown = true) : (s'.cq q).isShutdown = true := by
  cases hs with
  | @call t c =>
    cases c with
    | postAt | resume =>
      simp only [begin]
      split <;> exact hq
    | makeServer wired =>
      simp only [begin, beginAttach]
      split
      · exact hq
      · exact ((makes_wire s s.nextId 0 wired).shutdown q).trans hq
    | _ => exact hq
  | @push _ _ _ _ _ pc' => cases pc' <;> exact hq
  | @post _ _ _ pc answer =>
    rcases pc with - | (_ | _) | i | can
    · exact hq
    · exact hq
    · exact hq
    · simp only [postStep]
      split
      · exact hq
      · exact isShutdown_update (fun hshut => hshut) hq
    · exact hq
  | runWhile _ hrun => cases hrun <;> exact hq
  | stop _ hstop =>
    cases hstop with
    | halt => exact isShutdown_update (fun _ => rfl) hq
    | _ => exact hq
  | attach _ hat => cases hat <;> exact hq
  | notify _ hnot => cases hnot <;> exact hq
  | @workEnd t h answer =>
    simp only [workEndStep]
    split
    · exact hq
    · exact isShutdown_update (fun hshut => hshut) hq
  | fatal => exact hq
  | work _ _ _ hloop =>
    cases hloop with
    | pollEvent => exact isShutdown_update (fun hshut => hshut) hq
    | complete => exact isShutdown_completeStep hq
    | run | executeNext => exact isShutdown_execute hq
    | _ => exact hq

/-! ### Who comes back -/

/-- The worker will poll queue `j` of set `k` before it leaves its loop: it has not come to the
queue in its present pass, or this pass is not its last. -/
def Revisits (s : State cfg τ) (w k j : ℕ) : WorkerPc → Prop
  | .polling k' i c => c.shutdown + s.setSize k' < c.total + i ∨ k' < k ∨
      (k' = k ∧ ∀ i' < i, nextCqIndex w i' (s.setSize k) ≠ j)
  | .checking c => c.shutdown ≠ c.total
  | .draining _ | .executing _ | .exited => False
  | _ => True

/-- A pass that has executed an event is not the last one. -/
def Lagging (s : State cfg τ) : WorkerPc → Prop
  | .polling k i c => c.current ≠ c.executed → c.shutdown + s.setSize k < c.total + i
  | _ => True

/-- No sum of a thread number and the index of a poll wraps. -/
def ThreadsFit (s : State cfg τ) : Prop :=
  ∀ k ≤ s.servers.length, cfg.nThreads + s.setSize k ≤ unsignedSize

theorem Revisits.of_servers {pc : WorkerPc} (h : s'.servers = s.servers)
    (hrev : s.Revisits w k j pc) : s'.Revisits w k j pc := by
  have hsize := setSize_of_servers h
  cases pc <;> simp only [Revisits, hsize] at hrev ⊢ <;> exact hrev

/-- A worker comes to every queue of a set. -/
theorem exists_nextCqIndex {size : ℕ} (hw : w + size ≤ unsignedSize) (hj : j < size) :
    ∃ i < size, nextCqIndex w i size = j :=
  RoundRobin.exists_slot_eq_of_le (m := unsignedSize) hw hj

/-- Only workers that have not left their loops revisit a queue. -/
theorem Revisits.not_exited {pc : WorkerPc} (h : s.Revisits w k j pc) : pc ≠ .exited := by
  rintro rfl
  exact h

variable [DecidableEq τ]

/-- A worker that executes an event comes back. -/
theorem revisits_complete {k' i : ℕ} {c : PassCounts} {what : Completion}
    (hpass : s.PassOk w (.completing k' i c what)) :
    ∃ pc, (s.completeStep w k' i c what).worker = Function.update s.worker w pc ∧
      s.Revisits w k j pc ∧ s.Lagging pc := by
  have hcount := hpass.1.count
  obtain ⟨pc, hpc, rfl | ⟨what', rfl⟩⟩ := worker_completeStep s w k' i c what
  · have hlt : c.shutdown + s.setSize k' < c.total + (i + 1) := by omega
    exact ⟨_, hpc, Or.inl hlt, fun _ => hlt⟩
  · exact ⟨_, hpc, trivial, trivial⟩

/-- A worker goes on: until the queue is exhausted, it will poll it again. -/
theorem revisits_loop {answer : WorkAnswer} {pc : WorkerPc}
    (hpass : s.PassOk w pc) (hlag : s.Lagging pc) (hk : k ≤ s.servers.length)
    (hj : j < s.setSize k) (hw : w + s.setSize k ≤ unsignedSize)
    (hopen : ¬ (s.cq (s.queueAt k j)).Exhausted) (hrev : s.Revisits w k j pc)
    (hs : LoopStep s w answer pc s') :
    ∃ pc', s'.worker = Function.update s.worker w pc' ∧ s.Revisits w k j pc' := by
  cases hs with
  | complete =>
    obtain ⟨pc', hpc', hrev', -⟩ := revisits_complete hpass
    exact ⟨pc', hpc', hrev'⟩
  | pass | stopped =>
    refine ⟨_, rfl, Or.inr ?_⟩
    rcases Nat.eq_zero_or_pos k with rfl | hpos
    · exact Or.inr ⟨rfl, fun i' hi' => absurd hi' (Nat.not_lt_zero _)⟩
    · exact Or.inl hpos
  | @pollNone k' i c hi hc =>
    have hcount := hpass.count
    exact ⟨_, rfl, Or.inl (by omega)⟩
  | @pollShutdown k' i c hi hc hex =>
    refine ⟨_, rfl, ?_⟩
    rcases hrev with hlt | hlt | ⟨rfl, hnot⟩
    · refine Or.inl ?_
      show c.shutdown + 1 + s.setSize k' < c.total + (i + 1)
      omega
    · exact Or.inr (Or.inl hlt)
    · refine Or.inr (Or.inr ⟨rfl, fun i' hi' => ?_⟩)
      rcases Nat.lt_succ_iff_lt_or_eq.mp hi' with hi' | rfl
      · exact hnot i' hi'
      · -- the queue that is polled is exhausted
        rintro rfl
        exact hopen hex
  | @nextSet k' i c hend hk' =>
    refine ⟨_, rfl, ?_⟩
    have hle := hpass.le
    have hcount := hpass.count
    have hlater : c.shutdown + s.setSize k' < c.total + i →
        c.shutdown + s.setSize (k' + 1) < c.total + s.setSize (k' + 1) + 0 := by omega
    rcases hrev with hlt | hlt | ⟨rfl, hnot⟩
    · exact Or.inl (hlater hlt)
    · rcases Nat.lt_or_eq_of_le (Nat.succ_le_of_lt hlt) with hlt' | rfl
      · exact Or.inr (Or.inl hlt')
      · exact Or.inr (Or.inr ⟨rfl, fun i' hi' => absurd hi' (Nat.not_lt_zero _)⟩)
    · obtain ⟨i', hi', hindex⟩ := exists_nextCqIndex hw hj
      have hlt : i ≤ i' := by
        by_contra hlt
        exact hnot i' (Nat.lt_of_not_le hlt) hindex
      -- it has executed an event of the set
      have hne : c.current ≠ c.executed := fun heq => hend ⟨by omega, heq⟩
      exact Or.inl (hlater (hlag hne))
  | @polled k' i c hend hk' =>
    refine ⟨_, rfl, ?_⟩
    have hle := hpass.le
    have hset := hpass.set_le
    have hleaves : c.shutdown + s.setSize k' < c.total + i → c.shutdown ≠ c.total := by omega
    rcases hrev with hlt | hlt | ⟨rfl, hnot⟩
    · exact hleaves hlt
    · omega
    · obtain ⟨i', hi', hindex⟩ := exists_nextCqIndex hw hj
      have hlt : i ≤ i' := by
        by_contra hlt
        exact hnot i' (Nat.lt_of_not_le hlt) hindex
      have hne : c.current ≠ c.executed := fun heq => hend ⟨by omega, heq⟩
      exact hleaves (hlag hne)
  | leave heq => exact absurd heq hrev
  | run => exact ⟨_, worker_execute, trivial⟩
  | stop | pollEvent | stay | popCall | pop | popped | missed => exact ⟨_, rfl, trivial⟩
  | ejectCall | eject | ejected | exit | executeNext => exact absurd hrev id

/-- What a pass has executed is counted. -/
theorem lagging_loop {answer : WorkAnswer} {pc : WorkerPc} (hpass : s.PassOk w pc)
    (hlag : s.Lagging pc) (hs : LoopStep s w answer pc s') :
    ∃ pc', s'.worker = Function.update s.worker w pc' ∧ s.Lagging pc' := by
  cases hs with
  | complete =>
    obtain ⟨pc', hpc', -, hlag'⟩ := revisits_complete (k := 0) (j := 0) hpass
    exact ⟨pc', hpc', hlag'⟩
  | pass | stopped => exact ⟨_, rfl, fun hne => absurd rfl hne⟩
  | pollNone _ hc => exact ⟨_, rfl, fun hne => absurd hc hne⟩
  | pollShutdown _ hc => exact ⟨_, rfl, fun hne => absurd hc hne⟩
  | nextSet => exact ⟨_, rfl, fun hne => absurd rfl hne⟩
  | run | executeNext => exact ⟨_, worker_execute, trivial⟩
  | stop | pollEvent | polled | leave | stay | popCall | pop | popped | missed | ejectCall | eject
  | ejected | exit => exact ⟨_, rfl, trivial⟩

/-- Servers are attached while no worker is in its loop. -/
theorem servers_or_top (h : (contextSystem cfg τ).Reachable s) (hs : Step s a s') :
    s'.servers = s.servers ∨ ∀ w, s.worker w = .top ∧ s'.worker w = .top := by
  rcases Nat.eq_zero_or_pos s.created with hzero | hpos
  · right
    intro w
    have htop := worker_of_not_created h (hzero ▸ Nat.zero_le w)
    refine ⟨htop, ?_⟩
    rcases loop_of_step hs with hsame | ⟨v, _, -, hv, -⟩
    · rw [hsame.worker, htop]
    · rw [hzero] at hv
      exact absurd hv (Nat.not_lt_zero v)
  · exact Or.inl (servers_of_created h hs hpos)

theorem lagging_of_reachable (h : (contextSystem cfg τ).Reachable s) (w : ℕ) :
    s.Lagging (s.worker w) := by
  have hinv : ∀ w, s.Lagging (s.worker w) := by
    refine h.invariant (I := fun u => ∀ w, u.Lagging (u.worker w)) ?_
      fun u a u' hr hI _ hs v => ?_
    · rintro _ rfl v
      trivial
    · have hstep := (step_spec hs).2
      rcases servers_or_top hr hstep with hservers | htop
      · have hsize := setSize_of_servers hservers
        have hkeep : ∀ {pc}, u.Lagging pc → u'.Lagging pc := by
          intro pc hpc
          cases pc <;> simp only [Lagging, hsize] at hpc ⊢
          exact hpc
        refine hkeep ?_
        rcases loop_of_step hstep with hsame | ⟨w, answer, -, -, -, hloop⟩
        · rw [hsame.worker]
          exact hI v
        · obtain ⟨pc', hpc', hlag⟩ := lagging_loop (passOk_of_reachable hr w) (hI w) hloop
          rw [hpc']
          rcases eq_or_ne v w with rfl | hv
          · rwa [Function.update_self]
          · rw [Function.update_of_ne hv]
            exact hI v
      · rw [(htop v).2]
        trivial
  exact hinv w

/-! ### New events -/

omit [DecidableEq τ] in
/-- The event of a `Finish`. -/
theorem newEvent_finish {n : ℕ} {q : QueueId} {e : Event} (hold : e ∉ (s.cq q).pending)
    (he : e ∈ ((s.finish n).cq q).pending) : q = (s.handler n).cq ∧ e = .handler n := by
  have he' : e ∈ (Function.update s.cq (s.handler n).cq
      ((s.cq (s.handler n).cq).start (.handler n)) q).pending := he
  rcases eq_or_ne q (s.handler n).cq with rfl | hne
  · rw [Function.update_self] at he'
    exact ⟨rfl, (List.mem_append.mp he').elim (fun hin => absurd hin hold) List.mem_singleton.mp⟩
  · rw [Function.update_of_ne hne] at he'
    exact absurd he' hold

/-- A worker starts operations inside a `complete`, or in the detached work of a handler. -/
theorem newEvent_of_loopStep {answer : WorkAnswer} {pc : WorkerPc} {q : QueueId} {e : Event}
    (hs : LoopStep s w answer pc s') (hold : e ∉ (s.cq q).pending)
    (he : e ∈ (s'.cq q).pending) : (∃ k i c what, pc = .completing k i c what) ∨
      (∃ f, pc = .running f) ∨
        ∃ m n rest, pc = .executing (⟨m, .finish n⟩ :: rest) ∧ answer.work = .finished ∧
          e = .handler n := by
  cases hs with
  | complete => exact Or.inl ⟨_, _, _, _, rfl⟩
  | run => exact Or.inr (Or.inl ⟨_, rfl⟩)
  | @executeNext f rest =>
    rcases f with ⟨m, _ | _ | n⟩
    · exact absurd he hold
    · exact absurd he hold
    · rcases answer with ⟨predicate, next, locked, throws, _ | _ | _⟩
      · exact Or.inr (Or.inr ⟨m, n, rest, rfl, rfl, (newEvent_finish hold he).2⟩)
      · exact absurd he hold
      · exact absurd he hold
  | pollEvent => exact absurd (mem_pending_take he) hold
  | stop | pass | stopped | pollNone | pollShutdown | nextSet | polled | leave | stay | popCall
  | pop | popped | missed | ejectCall | eject | ejected | exit => exact absurd he hold

/-- Operations are started on the queues of a new container, by workers, and by detached works that
complete elsewhere. -/
theorem newEvent_of_step (hs : Step s a s') {id : ℕ} {e : Event}
    (hold : e ∉ (s.cq (.server id j)).pending) (he : e ∈ (s'.cq (.server id j)).pending) :
    id = s.nextId ∨
      (∃ w answer, a = .work w answer ∧ w < s.created ∧ LoopStep s w answer (s.worker w) s') ∨
        ∃ t n answer, a = .api t answer ∧ s.frame t = some (.work n) ∧ answer.stopped = false ∧
          .server id j = (s.handler n).cq ∧ e = .handler n := by
  have hsame : (s'.cq (.server id j)).pending = (s.cq (.server id j)).pending → False :=
    fun heq => hold (heq ▸ he)
  cases hs with
  | @call t c =>
    cases c with
    | postAt | resume =>
      simp only [begin] at hsame
      split at hsame <;> exact (hsame rfl).elim
    | makeServer wired =>
      left
      by_contra hne
      refine hsame ?_
      simp only [begin, beginAttach]
      split
      · rfl
      · refine congrArg CompletionQueue.pending
          ((wiresAll_wire s.nextId wired s 0).other _ fun k heq => hne ?_)
        exact (QueueId.server.inj heq).1
    | _ => exact (hsame rfl).elim
  | @push _ _ _ _ _ pc' => cases pc' <;> exact (hsame rfl).elim
  | @post _ kind m pc answer =>
    rcases answer with ⟨slot, throws, reenters, stopped⟩
    rcases pc with - | (_ | _) | i | can
    · exact (hsame rfl).elim
    · exact (hsame rfl).elim
    · exact (hsame rfl).elim
    · cases throws with
      | false =>
        refine (hsame ?_).elim
        show (Function.update s.cq (.own i) ((s.cq (.own i)).start (kind.event m))
          (.server id j)).pending = _
        rw [Function.update_of_ne (by simp)]
      | true => exact (hsame rfl).elim
    · exact (hsame rfl).elim
  | runWhile _ hrun => cases hrun <;> exact (hsame rfl).elim
  | stop _ hstop =>
    cases hstop with
    | @halt k q => exact (hsame (pending_shutdown s q (.server id j))).elim
    | _ => exact (hsame rfl).elim
  | attach _ hat => cases hat <;> exact (hsame rfl).elim
  | notify _ hnot => cases hnot <;> exact (hsame rfl).elim
  | @workEnd t n answer hf =>
    rcases answer with ⟨slot, throws, reenters, _ | _⟩
    · exact Or.inr (Or.inr ⟨t, n, _, rfl, hf, rfl, newEvent_finish hold he⟩)
    · exact (hsame rfl).elim
  | fatal => exact (hsame rfl).elim
  | @work w pc answer _ hw _ hpc hloop => exact Or.inr (Or.inl ⟨w, answer, rfl, hw, hpc ▸ hloop⟩)

/-! ### Every event is waited for -/

/-- The answer of a handler that is a sender: its detached work has called `Finish` late. -/
def Answers (s : State cfg τ) (g : HandlerLog) (e : Event) : Prop :=
  ∃ n ∈ g.late, e = .handler n ∧ n < s.nextHandler ∧ (s.handler n).immediate = false ∧
    (s.handler n).deleteOnNextComplete = true

/-- Whatever is pending on the queue of an attached server will be polled by some worker, but for
the late answers of senders, and all workers will poll a queue that has not been shut down. -/
structure DrainOk (s : State cfg τ) (g : HandlerLog) : Prop where
  pending : ∀ k, 0 < k → k ≤ s.servers.length → ∀ j < s.setSize k,
    ∀ e ∈ (s.cq (s.queueAt k j)).pending, s.Answers g e ∨
      ∃ w < cfg.nThreads, s.Revisits w k j (s.worker w)
  opened : ∀ k ≤ s.servers.length, ∀ j < s.setSize k,
    (s.cq (s.queueAt k j)).isShutdown = false → ∀ w < cfg.nThreads, s.Revisits w k j (s.worker w)

omit [DecidableEq τ] in
/-- What is seen to be late is not forgotten. -/
theorem late_subset_see : g.late ⊆ (g.see s a s').late := by
  cases a with
  | call => exact List.Subset.refl _
  | api => exact List.subset_append_left ..
  | work =>
    simp only [HandlerLog.see]
    split
    · exact List.Subset.refl _
    · exact List.subset_append_left ..

omit [DecidableEq τ] in
theorem Answers.step {g' g₀ g₁ : HandlerLog} {e : Event} (h : s.Answers g₀ e)
    (hlate : g₀.late ⊆ g₁.late) (hok : s.HandlersOk g) (hs : HandlerChange s g s' g') :
    s'.Answers g₁ e := by
  obtain ⟨n, hmem, rfl, hn, himmediate, hflag⟩ := h
  obtain ⟨hlt, heq, hmono⟩ := hok.handler_of_step hs hn
  exact ⟨n, hlate hmem, rfl, hlt, heq.trans himmediate, hmono hflag⟩

omit [DecidableEq τ] in
/-- A detached work is that of a sender. -/
theorem HandlersOk.answers {g' : HandlerLog} (hok : s.HandlersOk g) {n : ℕ} {P : HandlerPlace τ}
    (hP : P.Detached) (hn : n ∈ s.handlerPlaces g P) (hlate : n ∈ g'.late) :
    s.Answers g' (.handler n) :=
  ⟨n, hlate, rfl, hok.lt hn, hok.detached n P hP hn, hok.served n P hP.served hn⟩

/-- A worker that will poll the queue again still will after a step, until it is exhausted. -/
theorem Revisits.step (hr : (contextSystem cfg τ).Reachable s) (hs : Step s a s')
    (hservers : s'.servers = s.servers) (hfit : s.ThreadsFit) (hk : k ≤ s.servers.length)
    (hj : j < s.setSize k) (hw : w < cfg.nThreads)
    (hopen : ¬ (s.cq (s.queueAt k j)).Exhausted) (hrev : s.Revisits w k j (s.worker w)) :
    s'.Revisits w k j (s'.worker w) := by
  refine Revisits.of_servers hservers ?_
  rcases loop_of_step hs with hsame | ⟨v, answer, -, -, -, hloop⟩
  · rw [hsame.worker]
    exact hrev
  · rcases eq_or_ne w v with rfl | hne
    · have hsum : w + s.setSize k ≤ unsignedSize := by
        have hle := hfit k hk
        omega
      obtain ⟨pc', hpc', hrev'⟩ := revisits_loop (passOk_of_reachable hr w)
        (lagging_of_reachable hr w) hk hj hsum hopen hrev hloop
      rw [hpc', Function.update_self]
      exact hrev'
    · obtain ⟨pc', hpc'⟩ := worker_of_loopStep hloop
      rw [hpc', Function.update_of_ne hne]
      exact hrev

/-- All workers will poll a queue that has not been shut down, after a step too. -/
theorem DrainOk.revisits (h : s.DrainOk g) (hr : (contextSystem cfg τ).Reachable s)
    (hs : Step s a s') (hservers : s'.servers = s.servers) (hfit : s.ThreadsFit)
    (hk : k ≤ s.servers.length) (hj : j < s.setSize k)
    (hopen : (s.cq (s.queueAt k j)).isShutdown = false) (hw : w < cfg.nThreads) :
    s'.Revisits w k j (s'.worker w) := by
  refine (h.opened k hk j hj hopen w hw).step hr hs hservers hfit hk hj hw ?_
  rintro ⟨hshut, -⟩
  rw [hopen] at hshut
  cases hshut

omit [DecidableEq τ] in
/-- A detached work calls `Finish` on a worker after its last pass. -/
theorem HandlersOk.answers_executing (hok : s.HandlersOk g) {answer : WorkAnswer} {m n : ℕ}
    {rest : List Thunk} (hpc : s.worker w = .executing (⟨m, .finish n⟩ :: rest))
    (hwork : answer.work = .finished) (hgo : s'.terminated = false) :
    s.Answers (g.see s (.work w answer) s') (.handler n) := by
  have hhand : n ∈ s.handlerPlaces g (.hand w) := by
    refine List.mem_filterMap.mpr ⟨⟨m, .finish n⟩, ?_, rfl⟩
    rw [hpc]
    exact List.mem_cons_self
  refine hok.answers (P := .hand w) trivial hhand ?_
  simp [HandlerLog.see, hgo, worksTo, hpc, hwork, WorkerPc.PastLoop, WorkerPc.executes,
    Thunk.handler?]

omit [DecidableEq τ] in
/-- A detached work calls `Finish` elsewhere, on a queue that has been shut down. -/
theorem HandlersOk.answers_resumed (hok : s.HandlersOk g) {answer : ApiAnswer} {n : ℕ}
    (hf : s.frame t = some (.work n)) (hstopped : answer.stopped = false)
    (hshut : (s.cq (s.handler n).cq).isShutdown = true) :
    s.Answers (g.see s (.api t answer) s') (.handler n) := by
  have hresumed : n ∈ s.handlerPlaces g (.resumed t) := by
    show n ∈ resumed (s.frame t)
    rw [hf]
    exact List.mem_singleton_self n
  refine hok.answers (P := .resumed t) trivial hresumed ?_
  simp [HandlerLog.see, hf, hstopped, resumed, hshut]

/-- An event that a step makes is waited for, or is a late answer. -/
theorem DrainOk.newEvent (h : s.DrainOk g) (hr : (contextSystem cfg τ).Reachable s)
    (hok : s.HandlersOk g) (hfit : s.ThreadsFit) (hgo : s.terminated = false) (hs : Step s a s')
    (hchange : HandlerChange s g s' (g.see s a s')) (hservers : s'.servers = s.servers)
    (hpos : 0 < k) (hk : k ≤ s.servers.length) (hj : j < s.setSize k) {e : Event}
    (hold : e ∉ (s.cq (s.queueAt k j)).pending) (he : e ∈ (s'.cq (s.queueAt k j)).pending) :
    s'.Answers (g.see s a s') e ∨ ∃ w < cfg.nThreads, s'.Revisits w k j (s'.worker w) := by
  have hcreated := (runOk_of_reachable hr).created_le
  obtain ⟨i, rfl⟩ : ∃ i, k = i + 1 := ⟨k - 1, by omega⟩
  rcases newEvent_of_step hs hold he with hid | ⟨w, answer, rfl, hw, hloop⟩ |
    ⟨t, n, answer, rfl, hf, hstopped, hcq, rfl⟩
  · -- a new container has not been attached
    have hmem : s.servers.getD i ⟨0, 0⟩ ∈ s.servers := by
      rw [List.getD_eq_getElem _ _ hk]
      exact List.getElem_mem hk
    exact absurd hid ((attachOk_of_reachable hr).attached _ hmem).ne
  · have hpass := passOk_of_reachable hr w
    rcases newEvent_of_loopStep hloop hold he with ⟨k', i', c, what, hpc⟩ | ⟨f, hpc⟩ |
      ⟨m, n, rest, hpc, hwork, rfl⟩
    · rw [hpc] at hloop hpass
      refine Or.inr ⟨w, hw.trans_le hcreated, Revisits.of_servers hservers ?_⟩
      cases hloop
      obtain ⟨pc', hpc', hrev, -⟩ := revisits_complete (k := i + 1) (j := j) hpass
      rw [hpc', Function.update_self]
      exact hrev
    · rw [hpc] at hloop
      refine Or.inr ⟨w, hw.trans_le hcreated, ?_⟩
      cases hloop
      rw [worker_execute, Function.update_self]
      trivial
    · -- after the last pass of the worker
      have hgo' : s'.terminated = false := by
        obtain ⟨_, _, _, _, _, _, _, _, _, _, _, _, rfl, -⟩ := loopStep_eq hloop
        exact hgo
      exact Or.inl ((hok.answers_executing hpc hwork hgo').step (List.Subset.refl _) hok hchange)
  · cases hshut : (s.cq (s.handler n).cq).isShutdown with
    | true =>
      exact Or.inl ((hok.answers_resumed hf hstopped hshut).step (List.Subset.refl _) hok hchange)
    | false =>
      -- the queue has not been shut down
      have hopen : (s.cq (s.queueAt (i + 1) j)).isShutdown = false := by
        rw [show s.queueAt (i + 1) j = (s.handler n).cq from hcq, hshut]
      exact Or.inr ⟨0, cfg.nThreads_pos,
        h.revisits hr hs hservers hfit hk hj hopen cfg.nThreads_pos⟩

theorem DrainOk.step (h : s.DrainOk g) (hr : (contextSystem cfg τ).Reachable s)
    (hok : s.HandlersOk g) (hfit : s.ThreadsFit) (hgo : s.terminated = false) (hs : Step s a s')
    (hchange : HandlerChange s g s' (g.see s a s')) : s'.DrainOk (g.see s a s') := by
  rcases servers_or_top hr hs with hservers | htop
  swap
  · -- no worker has entered its loop
    have hrev : ∀ w k j, s'.Revisits w k j (s'.worker w) := by
      intro w k j
      rw [(htop w).2]
      trivial
    exact ⟨fun k _ _ j _ _ _ => Or.inr ⟨0, cfg.nThreads_pos, hrev 0 k j⟩,
      fun k _ j _ _ w _ => hrev w k j⟩
  refine ⟨fun k hpos hk j hj e he => ?_, fun k hk j hj hopen w hw => ?_⟩
  · rw [hservers] at hk
    rw [setSize_of_servers hservers] at hj
    rw [queueAt_of_servers hservers] at he
    by_cases hold : e ∈ (s.cq (s.queueAt k j)).pending
    · rcases h.pending k hpos hk j hj e hold with hanswers | ⟨v, hv, hrev⟩
      · exact Or.inl (hanswers.step late_subset_see hok hchange)
      · refine Or.inr ⟨v, hv, hrev.step hr hs hservers hfit hk hj hv ?_⟩
        rintro ⟨-, hempty⟩
        rw [hempty] at hold
        cases hold
    · exact h.newEvent hr hok hfit hgo hs hchange hservers hpos hk hj hold he
  · rw [hservers] at hk
    rw [setSize_of_servers hservers] at hj
    rw [queueAt_of_servers hservers] at hopen
    have hold : (s.cq (s.queueAt k j)).isShutdown = false := by
      by_contra hshut
      rw [isShutdown_of_step hs (Bool.eq_true_of_not_eq_false hshut)] at hopen
      cases hopen
    exact h.revisits hr hs hservers hfit hk hj hold hw

omit [DecidableEq τ] in
/-- The thread numbers fit before a step when they do afterwards. -/
theorem ThreadsFit.of_append {ns : List ServerContainer} (h : s'.ThreadsFit)
    (hservers : s'.servers = s.servers ++ ns) : s.ThreadsFit := by
  intro k hk
  have hlen : k ≤ s'.servers.length := by
    rw [hservers, List.length_append]
    omega
  have hle := h k hlen
  cases k with
  | zero => exact hle
  | succ k =>
    simp only [setSize, hservers, List.getD_append _ _ _ k hk] at hle ⊢
    exact hle

theorem drainOk_of_reachable {p : State cfg τ × HandlerLog}
    (h : (handledSystem cfg τ).Reachable p) (hfit : p.1.ThreadsFit) : p.1.DrainOk p.2 := by
  have hinv : p.1.ThreadsFit → p.1.DrainOk p.2 := by
    refine h.invariant (I := fun p => p.1.ThreadsFit → p.1.DrainOk p.2) ?_
      fun p a p' hr hI _ hs hfit' => ?_
    · rintro ⟨_, _⟩ ⟨rfl, rfl⟩ _
      refine ⟨fun k _ _ j _ e he => ?_, fun _ _ _ _ _ _ _ => trivial⟩
      cases k <;> cases he
    · have hchange := handled_change hr hs
      obtain ⟨hstep, hsee⟩ := System.step_observed_iff.mp hs
      obtain ⟨hgo, hstep⟩ := step_spec hstep
      obtain ⟨ns, hns⟩ := servers_append_of_step hstep
      have hfit := hfit'.of_append hns
      rw [hsee] at hchange ⊢
      exact (hI hfit).step (reachable_of_handled hr) (handlersOk_of_reachable hr) hfit hgo hstep
        hchange
  exact hinv hfit

/-! ### The queues at `Stopped` -/

omit [DecidableEq τ] in
/-- The queues that `stop` shuts down are those of the sets. -/
theorem exists_queueAt {q : QueueId} (h : q ∈ s.allQueues) :
    ∃ k ≤ s.servers.length, ∃ j < s.setSize k, q = s.queueAt k j := by
  obtain ⟨k, hk, hq⟩ := List.mem_flatMap.mp h
  obtain ⟨j, hj, rfl⟩ := List.mem_map.mp hq
  exact ⟨k, Nat.lt_succ_iff.mp (List.mem_range.mp hk), j, List.mem_range.mp hj, rfl⟩

theorem answers_of_stopped {p : State cfg τ × HandlerLog}
    (h : (handledSystem cfg τ).ReachableUnder (fun p a => p.1.RangeComplete a) p)
    (hst : p.1.state = .Stopped) (hfit : p.1.ThreadsFit) {q : QueueId} (hq : q ∈ p.1.allQueues)
    {e : Event} (he : e ∈ (p.1.cq q).pending) : p.1.Answers p.2 e := by
  have hrange : (contextSystem cfg τ).ReachableUnder RangeComplete p.1 :=
    h.of_observed fun _ _ hP => hP
  obtain ⟨k, hk, j, hj, rfl⟩ := exists_queueAt hq
  rcases Nat.eq_zero_or_pos k with rfl | hpos
  · -- the queues in `cqs_` are exhausted
    have hpass := passOk_of_reachable hrange.reachable 0
    rw [exited_of_stopped hrange hst cfg.nThreads_pos] at hpass
    have hempty : (p.1.cq (.own j)).pending = [] := (exhausted_of_left hpass hj).2
    have he' : e ∈ (p.1.cq (.own j)).pending := he
    rw [hempty] at he'
    cases he'
  · rcases (drainOk_of_reachable h.reachable hfit).pending k hpos hk j hj e he with
      hanswers | ⟨w, hw, hrev⟩
    · exact hanswers
    · exact absurd (exited_of_stopped hrange hst hw) hrev.not_exited

/-- A client makes a container with a handler, a worker is handed its event, and the client stops
the context. -/
def busyCalls (immediate : Bool) : List (Act Unit) :=
  (.call (.client ()) (.makeServer [[immediate]]) :: List.replicate 4 (go (.client ()))) ++
    runCalls ++ handTurns ++ .call (.client ()) .stop :: List.replicate 5 (go (.client ()))

/-- A step of worker `0`, whose `try_pop`s find every sub-queue locked. -/
def idle (next : NextAnswer) : Act Unit := .work 0 ⟨false, next, false, false, .finished⟩

/-- The worker posts the detached work of the handler, and leaves its loop before it gets it. -/
def lateTurns : List (Act Unit) :=
  List.replicate 2 (idle .timeout) ++ List.replicate 4 (go (.worker 0)) ++
    List.replicate 11 (idle .shutdown) ++ idle (.gotEvent 0 false) ::
      List.replicate 21 (idle .shutdown) ++ List.replicate 5 (go (.client ()))

/-- The worker answers, and is handed the events of the two handlers before it leaves its loop. -/
def lastTurns : List (Act Unit) :=
  List.replicate 2 (idle .timeout) ++ List.replicate 10 (idle .shutdown) ++
    idle (.gotEvent 0 false) :: List.replicate 11 (idle .shutdown) ++
      idle (.gotEvent 0 true) :: List.replicate 20 (idle .shutdown) ++
        List.replicate 5 (go (.client ()))

end State

end Sgrpc
