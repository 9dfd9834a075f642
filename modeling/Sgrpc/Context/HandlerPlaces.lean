import Sgrpc.Context.HandlerChange

/-!
# Where the handlers of servers are

A handler is in one place at a time (`handlersOk_of_reachable`), whatever the interleaving, so no
two threads ever use one handler, and none is used once it has been deleted. It only moves on: it
makes at most one successor, calls `Finish` at most once, and is deleted at most once
(`handler_moves_on`).
-/

namespace Sgrpc

open Interleaving

namespace State

variable {cfg : Config} {τ : Type*} [DecidableEq τ] {s s' : State cfg τ} {g g' : HandlerLog}
  {n : ℕ} {P Q : HandlerPlace τ} {l : List ℕ}

/-! ### One place for each handler -/

/-- Every handler that has been made is in one place, once; those that are served will be deleted
next, and detached work is that of a sender. -/
structure HandlersOk (s : State cfg τ) (g : HandlerLog) : Prop where
  linear : Linear (s.handlerPlaces g)
  placed : ∀ n, Placed (s.handlerPlaces g) n ↔ n < s.nextHandler
  served : ∀ n P, P.Served → n ∈ s.handlerPlaces g P →
    (s.handler n).deleteOnNextComplete = true
  detached : ∀ n P, P.Detached → n ∈ s.handlerPlaces g P → (s.handler n).immediate = false

/-- The handlers stay where they are. -/
structure Stays (s s' : State cfg τ) (g : HandlerLog) : Prop where
  place : ∀ n P, n ∈ s.handlerPlaces g P → n ∈ s'.handlerPlaces g P
  handler : ∀ n < s.nextHandler, s'.handler n = s.handler n
  nextHandler : s.nextHandler ≤ s'.nextHandler

omit [DecidableEq τ] in
theorem Stays.trans {s'' : State cfg τ} (h : Stays s s' g) (h' : Stays s' s'' g) :
    Stays s s'' g where
  place n P hn := h'.place n P (h.place n P hn)
  handler n hn := (h'.handler n (hn.trans_le h.nextHandler)).trans (h.handler n hn)
  nextHandler := h.nextHandler.trans h'.nextHandler

omit [DecidableEq τ] in
theorem HandlersOk.lt (h : s.HandlersOk g) (hn : n ∈ s.handlerPlaces g P) : n < s.nextHandler :=
  (h.placed n).mp ⟨P, hn⟩

omit [DecidableEq τ] in
/-- The new handler is pending on its queue. -/
theorem inserted_arm (s : State cfg τ) (g : HandlerLog) (q : QueueId) (immediate : Bool) :
    Inserted (s.handlerPlaces g) ((s.arm q immediate).handlerPlaces g) (.queue q)
      s.nextHandler := by
  have hcq : (s.arm q immediate).cq =
      Function.update s.cq q ((s.cq q).start (.handler s.nextHandler)) := rfl
  refine ⟨?_, ?_⟩
  · show pendingHandlers _ q = s.pendingHandlers q ++ [s.nextHandler]
    rw [pendingHandlers_start hcq, if_pos rfl]
    rfl
  · intro R hne
    cases R with
    | queue q' =>
      have hq : q' ≠ q := fun heq => hne (by rw [heq])
      show pendingHandlers _ q' = s.pendingHandlers q'
      rw [pendingHandlers_start hcq, if_neg hq, List.append_nil]
    | _ => rfl

omit [DecidableEq τ] in
theorem HandlersOk.arm (h : s.HandlersOk g) (q : QueueId) (immediate : Bool) :
    (s.arm q immediate).HandlersOk g ∧ Stays s (s.arm q immediate) g := by
  have hins := inserted_arm s g q immediate
  have hfresh : ¬ Placed (s.handlerPlaces g) s.nextHandler := by
    rw [h.placed]
    exact Nat.lt_irrefl _
  have hold : ∀ n < s.nextHandler, (s.arm q immediate).handler n = s.handler n :=
    fun n hn => Function.update_of_ne hn.ne ..
  refine ⟨⟨h.linear.insert hins hfresh, fun n => ?_, fun n P hP hn => ?_, fun n P hP hn => ?_⟩,
    ⟨fun n P hn => hins.mem_iff.mpr (Or.inl hn), hold, Nat.le_succ _⟩⟩
  · rw [hins.placed_iff, h.placed]
    exact Nat.lt_succ_iff_lt_or_eq.symm
  · rcases hins.mem_iff.mp hn with hmem | ⟨rfl, -⟩
    · rw [hold n (h.lt hmem)]
      exact h.served n P hP hmem
    · exact absurd hP id
  · rcases hins.mem_iff.mp hn with hmem | ⟨rfl, -⟩
    · rw [hold n (h.lt hmem)]
      exact h.detached n P hP hmem
    · exact absurd hP id

omit [DecidableEq τ] in
theorem HandlersOk.wireRpcs (q : QueueId) (wired : List Bool) :
    ∀ {s : State cfg τ}, s.HandlersOk g →
      (s.wireRpcs q wired).HandlersOk g ∧ Stays s (s.wireRpcs q wired) g := by
  induction wired with
  | nil => exact fun h => ⟨h, ⟨fun _ _ hn => hn, fun _ _ => rfl, le_rfl⟩⟩
  | cons immediate rest ih =>
    intro s h
    obtain ⟨harm, hstay⟩ := h.arm q immediate
    obtain ⟨hrest, hstay'⟩ := ih harm
    exact ⟨hrest, hstay.trans hstay'⟩

omit [DecidableEq τ] in
theorem HandlersOk.wire (id : ℕ) (wired : List (List Bool)) :
    ∀ {s : State cfg τ} (j : ℕ), s.HandlersOk g →
      (s.wire id j wired).HandlersOk g ∧ Stays s (s.wire id j wired) g := by
  induction wired with
  | nil => exact fun _ h => ⟨h, ⟨fun _ _ hn => hn, fun _ _ => rfl, le_rfl⟩⟩
  | cons w rest ih =>
    intro s j h
    obtain ⟨hfirst, hstay⟩ := h.wireRpcs (.server id j) w
    obtain ⟨hrest, hstay'⟩ := ih (j + 1) hfirst
    exact ⟨hrest, hstay.trans hstay'⟩

/-- Each handler is where it was, or has moved on. -/
def MovesOn (s : State cfg τ) (g : HandlerLog) (s' : State cfg τ) (g' : HandlerLog) : Prop :=
  ∀ n P, n ∈ s.handlerPlaces g P → ∃ P', n ∈ s'.handlerPlaces g' P' ∧
    Relation.ReflGen Advances (P, (s.handler n).deleteOnNextComplete)
      (P', (s'.handler n).deleteOnNextComplete)

omit [DecidableEq τ] in
/-- What `delete_on_next_complete_ = true` changes. -/
theorem handler_of_serve {q : QueueId} {immediate : Bool} {m : ℕ}
    (hhandler : s'.handler = Function.update (s.arm q immediate).handler m
      { (s.arm q immediate).handler m with deleteOnNextComplete := true }) :
    (s'.handler m).deleteOnNextComplete = true ∧
      (∀ n, n ≠ m → s'.handler n = (s.arm q immediate).handler n) ∧
      ∀ n, (s'.handler n).immediate = ((s.arm q immediate).handler n).immediate := by
  have hother : ∀ n, n ≠ m → s'.handler n = (s.arm q immediate).handler n := by
    intro n hn
    rw [hhandler, Function.update_of_ne hn]
  refine ⟨by rw [hhandler, Function.update_self], hother, fun n => ?_⟩
  rcases eq_or_ne n m with rfl | hne
  · rw [hhandler, Function.update_self]
  · rw [hother n hne]

omit [DecidableEq τ] in
/-- Handlers that move have one place each, as before. -/
theorem HandlersOk.move (h : s.HandlersOk g)
    (hmoved : Moved (s.handlerPlaces g) (s'.handlerPlaces g') P Q l) (honward : Onward P Q)
    (hdetached : Q.Detached → P.Detached ∨ ∀ n ∈ l, (s.handler n).immediate = false)
    (hhandler : s'.handler = s.handler) (hnext : s'.nextHandler = s.nextHandler) :
    s'.HandlersOk g' ∧ MovesOn s g s' g' := by
  refine ⟨⟨h.linear.move hmoved honward.ne, fun n => ?_, fun n R hR hn => ?_,
    fun n R hR hn => ?_⟩, fun n R hn => ?_⟩
  · rw [hmoved.placed_iff honward.ne, hnext, h.placed]
  · rw [hhandler]
    rcases hmoved.mem_cases hn with hold | ⟨rfl, hx⟩
    · exact h.served n R hR hold
    · exact h.served n P (honward.served hR) (hmoved.mem_source.mpr (Or.inl hx))
  · rw [hhandler]
    rcases hmoved.mem_cases hn with hold | ⟨rfl, hx⟩
    · exact h.detached n R hR hold
    · rcases hdetached hR with hP | hsender
      · exact h.detached n P hP (hmoved.mem_source.mpr (Or.inl hx))
      · exact hsender n hx
  · rw [hhandler]
    rcases hmoved.stays_or_moves hn with hstay | ⟨rfl, -, hnew⟩
    · exact ⟨R, hstay, .refl⟩
    · exact ⟨Q, hnew, .single (honward.advances _ fun hR => h.served n R hR hn)⟩

omit [DecidableEq τ] in
/-- A handler that makes its successor, which is pending on its queue, moves on alone. -/
theorem HandlersOk.serve (h : s.HandlersOk g) {w m : ℕ} {q : QueueId} {immediate : Bool}
    (hmoved : Moved ((s.arm q immediate).handlerPlaces g) (s'.handlerPlaces g') (.entered w)
      (.armed w) [m]) (hflag : (s.handler m).deleteOnNextComplete = false)
    (hhandler : s'.handler = Function.update (s.arm q immediate).handler m
      { (s.arm q immediate).handler m with deleteOnNextComplete := true })
    (hnext : s'.nextHandler = (s.arm q immediate).nextHandler) :
    s'.HandlersOk g' ∧ MovesOn s g s' g' := by
  obtain ⟨harm, hstay⟩ := h.arm q immediate
  obtain ⟨hset, hother, himmediate⟩ := handler_of_serve hhandler
  have hm : m ∈ (s.arm q immediate).handlerPlaces g (.entered w) :=
    hmoved.mem_source.mpr (Or.inl (List.mem_singleton_self m))
  -- the handler that is served has left its place
  have hleft : m ∉ s'.handlerPlaces g' (.entered w) := by
    have hnodup := hmoved.source.nodup_iff.mp (harm.linear.nodup (.entered w))
    exact List.disjoint_of_nodup_append hnodup (List.mem_singleton_self m)
  refine ⟨⟨harm.linear.move hmoved (by simp), fun n => ?_, fun n R hR hn => ?_,
    fun n R hR hn => ?_⟩, fun n R hn => ?_⟩
  · rw [hmoved.placed_iff (by simp), hnext, harm.placed]
  · rcases eq_or_ne n m with rfl | hne
    · exact hset
    · rw [hother n hne]
      rcases hmoved.mem_cases hn with hold | ⟨-, hx⟩
      · exact harm.served n R hR hold
      · exact absurd (List.mem_singleton.mp hx) hne
  · rw [himmediate]
    rcases hmoved.mem_cases hn with hold | ⟨rfl, -⟩
    · exact harm.detached n R hR hold
    · exact absurd hR id
  · rcases hmoved.stays_or_moves (hstay.place n R hn) with hold | ⟨rfl, hx, hnew⟩
    · have hne : n ≠ m := by
        rintro rfl
        have hR : R = .entered w := harm.linear.unique (hstay.place n R hn) hm
        exact hleft (hR ▸ hold)
      refine ⟨R, hold, ?_⟩
      rw [hother n hne, hstay.handler n (h.lt hn)]
    · obtain rfl := List.mem_singleton.mp hx
      refine ⟨.armed w, hnew, ?_⟩
      rw [hflag, hset]
      exact .single .serve

omit [DecidableEq τ] in
/-- A step keeps one place for each handler, and every handler moves on. -/
theorem HandlersOk.step (h : s.HandlersOk g) (hs : HandlerChange s g s' g') :
    s'.HandlersOk g' ∧ MovesOn s g s' g' := by
  cases hs with
  | same hlog hplaces hhandler hnext =>
    subst hlog
    refine ⟨⟨hplaces ▸ h.linear, fun n => by rw [hplaces, hnext, h.placed], ?_, ?_⟩,
      fun n P hn => ⟨P, hplaces ▸ hn, ?_⟩⟩
    · rw [hplaces, hhandler]
      exact h.served
    · rw [hplaces, hhandler]
      exact h.detached
    · rw [hhandler]
  | @wire id wired hlog hplaces hhandler hnext =>
    subst hlog
    obtain ⟨hok, hstay⟩ := h.wire id wired 0
    refine ⟨⟨hplaces ▸ hok.linear, fun n => by rw [hplaces, hnext, hok.placed], ?_, ?_⟩,
      fun n P hn => ⟨P, hplaces ▸ hstay.place n P hn, ?_⟩⟩
    · rw [hplaces, hhandler]
      exact hok.served
    · rw [hplaces, hhandler]
      exact hok.detached
    · rw [hhandler, hstay.handler n (h.lt hn)]
  | move hmoved honward hdetached _ _ hhandler hnext =>
    exact h.move hmoved honward hdetached hhandler hnext
  | serve hmoved hflag _ _ hhandler hnext => exact h.serve hmoved hflag hhandler hnext

omit [DecidableEq τ] in
/-- What a handler is does not change, but that it will be deleted next. -/
theorem HandlersOk.handler_of_step (h : s.HandlersOk g) (hs : HandlerChange s g s' g')
    (hn : n < s.nextHandler) : n < s'.nextHandler ∧
      (s'.handler n).immediate = (s.handler n).immediate ∧
      ((s.handler n).deleteOnNextComplete = true →
        (s'.handler n).deleteOnNextComplete = true) := by
  cases hs with
  | same _ _ hhandler hnext | move _ _ _ _ _ hhandler hnext =>
    rw [hnext, hhandler]
    exact ⟨hn, rfl, fun hflag => hflag⟩
  | @wire id wired _ _ hhandler hnext =>
    obtain ⟨-, hstay⟩ := h.wire id wired 0
    rw [hnext, hhandler, hstay.handler n hn]
    exact ⟨hn.trans_le hstay.nextHandler, rfl, fun hflag => hflag⟩
  | @serve _ m q immediate _ _ _ _ hhandler hnext =>
    obtain ⟨-, hstay⟩ := h.arm q immediate
    obtain ⟨hset, hother, himmediate⟩ := handler_of_serve hhandler
    refine ⟨hnext ▸ hn.trans_le hstay.nextHandler, ?_, fun hflag => ?_⟩
    · rw [himmediate, hstay.handler n hn]
    · rcases eq_or_ne n m with rfl | hne
      · exact hset
      · rwa [hother n hne, hstay.handler n hn]

/-! ### What a handler does once -/

/-- Every handler has made its successor, and called `Finish`, once at most. -/
structure LogOk (s : State cfg τ) (g : HandlerLog) : Prop where
  served : g.served.Nodup
  finished : g.finished.Nodup
  flagged : ∀ n, n ∈ g.served ∨ n ∈ g.finished → n < s.nextHandler ∧
    (s.handler n).deleteOnNextComplete = true
  ended : ∀ n ∈ g.finished, ∀ P, P.Served → n ∉ s.handlerPlaces g P

omit [DecidableEq τ] in
/-- Where an old handler is, it has been before. -/
theorem Stays.mem (hstay : Stays s s' g) (hok : s.HandlersOk g) (hok' : s'.HandlersOk g)
    (hn : n < s.nextHandler) (hP : n ∈ s'.handlerPlaces g P) : n ∈ s.handlerPlaces g P := by
  obtain ⟨R, hR⟩ := (hok.placed n).mpr hn
  rwa [hok'.linear.unique hP (hstay.place n R hR)]

omit [DecidableEq τ] in
/-- Those that call `Finish` are some of those that move, and are not served any more. -/
theorem mem_finishing (h : n ∈ Q.finishing l) : n ∈ l ∧ ¬ Q.Served := by
  cases Q with
  | queue q => exact ⟨h, id⟩
  | _ => cases h

omit [DecidableEq τ] in
/-- Handlers that call `Finish` when they move have been served until then. -/
theorem LogOk.move (h : s.LogOk g) (hok : s.HandlersOk g) (hok' : s'.HandlersOk g')
    (hkeep : ∀ n, n < s.nextHandler ∧ (s.handler n).deleteOnNextComplete = true →
      n < s'.nextHandler ∧ (s'.handler n).deleteOnNextComplete = true)
    (hmoved : Moved (s.handlerPlaces g) (s'.handlerPlaces g') P Q l) (honward : Onward P Q)
    (hserved : g'.served = g.served) (hfinished : g'.finished = g.finished ++ Q.finishing l) :
    s'.LogOk g' := by
  have hnew : ∀ n ∈ Q.finishing l, n ∈ s.handlerPlaces g P ∧ P.Served := by
    intro n hn
    exact ⟨hmoved.mem_source.mpr (Or.inl (mem_finishing hn).1),
      honward.finishes l (List.ne_nil_of_mem hn)⟩
  have hnodup : (Q.finishing l).Nodup := by
    have hsource := (hmoved.source.nodup_iff.mp (hok.linear.nodup P)).of_append_left
    cases Q with
    | queue q => exact hsource
    | _ => exact List.nodup_nil
  refine ⟨hserved ▸ h.served, ?_, fun n hn => ?_, fun n hn R hR hmem => ?_⟩
  · rw [hfinished]
    refine h.finished.append hnodup fun n hn hn' => ?_
    exact h.ended n hn P (hnew n hn').2 (hnew n hn').1
  · rw [hserved, hfinished, List.mem_append, ← or_assoc] at hn
    rcases hn with hold | hn
    · exact hkeep n (h.flagged n hold)
    · obtain ⟨hP, hserved⟩ := hnew n hn
      exact hkeep n ⟨hok.lt hP, hok.served n P hserved hP⟩
  · rw [hfinished, List.mem_append] at hn
    rcases hn with hold | hn
    · rcases hmoved.mem_cases hmem with hmem | ⟨rfl, hl⟩
      · exact h.ended n hold R hR hmem
      · exact h.ended n hold P (honward.served hR) (hmoved.mem_source.mpr (Or.inl hl))
    · obtain ⟨hl, hnot⟩ := mem_finishing hn
      have hQ : n ∈ s'.handlerPlaces g' Q := by
        rw [hmoved.target]
        exact List.mem_append_right _ hl
      exact hnot (hok'.linear.unique hmem hQ ▸ hR)

omit [DecidableEq τ] in
theorem LogOk.step (h : s.LogOk g) (hok : s.HandlersOk g) (hok' : s'.HandlersOk g')
    (hs : HandlerChange s g s' g') : s'.LogOk g' := by
  have hkeep : ∀ n, n < s.nextHandler ∧ (s.handler n).deleteOnNextComplete = true →
      n < s'.nextHandler ∧ (s'.handler n).deleteOnNextComplete = true := by
    rintro n ⟨hn, hflag⟩
    obtain ⟨hn', -, hmono⟩ := hok.handler_of_step hs hn
    exact ⟨hn', hmono hflag⟩
  cases hs with
  | same hlog hplaces =>
    subst hlog
    exact ⟨h.served, h.finished, fun n hn => hkeep n (h.flagged n hn), hplaces ▸ h.ended⟩
  | @wire id wired hlog hplaces =>
    subst hlog
    obtain ⟨hwired, hstay⟩ := hok.wire id wired 0
    refine ⟨h.served, h.finished, fun n hn => hkeep n (h.flagged n hn), fun n hn P hP hmem => ?_⟩
    rw [hplaces] at hmem
    exact h.ended n hn P hP (hstay.mem hok hwired (h.flagged n (Or.inr hn)).1 hmem)
  | move hmoved honward _ hserved hfinished =>
    exact h.move hok hok' hkeep hmoved honward hserved hfinished
  | @serve w m q immediate hmoved hflag hserved hfinished hhandler hnext =>
    obtain ⟨harm, hstay⟩ := hok.arm q immediate
    have hfresh : ∀ n, n ∈ g.served ∨ n ∈ g.finished → n ≠ m := by
      rintro n hn rfl
      have heq := (h.flagged n hn).2
      rw [hflag] at heq
      cases heq
    have hm : m ∈ (s.arm q immediate).handlerPlaces g (.entered w) :=
      hmoved.mem_source.mpr (Or.inl (List.mem_singleton_self m))
    refine ⟨?_, hfinished ▸ h.finished, fun n hn => ?_, fun n hn R hR hmem => ?_⟩
    · rw [hserved]
      refine h.served.append (List.nodup_singleton m) fun n hn hn' => ?_
      exact hfresh n (Or.inl hn) (List.mem_singleton.mp hn')
    · rw [hserved, hfinished, List.mem_append, List.mem_singleton, or_right_comm] at hn
      rcases hn with hold | rfl
      · exact hkeep n (h.flagged n hold)
      · exact ⟨hnext ▸ harm.lt hm, (handler_of_serve hhandler).1⟩
    · rw [hfinished] at hn
      rcases hmoved.mem_cases hmem with hold | ⟨-, hl⟩
      · exact h.ended n hn R hR (hstay.mem hok harm (h.flagged n (Or.inr hn)).1 hold)
      · exact hfresh n (Or.inr hn) (List.mem_singleton.mp hl)

/-! ### Runs -/

variable {p p' : State cfg τ × HandlerLog}

theorem init_handled : (handledSystem cfg τ).Init (.initial, .empty) := ⟨rfl, rfl⟩

theorem reachable_of_handled (h : (handledSystem cfg τ).Reachable p) :
    (contextSystem cfg τ).Reachable p.1 := h.of_observed fun _ _ _ => trivial

theorem handled_change {a : Act τ} (h : (handledSystem cfg τ).Reachable p)
    (hs : (handledSystem cfg τ).step p a = some p') :
    HandlerChange p.1 p.2 p'.1 p'.2 := by
  obtain ⟨hstep, hsee⟩ := System.step_observed_iff.mp hs
  have hr := reachable_of_handled h
  rw [hsee]
  obtain ⟨hgo, hs'⟩ := step_spec hstep
  exact handlerChange_of_step (pushesOk_of_reachable hr) (clean_of_reachable hr) hgo hs'

theorem handlersOk_of_reachable (h : (handledSystem cfg τ).Reachable p) : p.1.HandlersOk p.2 := by
  refine h.invariant (I := fun p => p.1.HandlersOk p.2) ?_ fun _ _ _ hr hI _ hs =>
    (hI.step (handled_change hr hs)).1
  rintro ⟨_, _⟩ ⟨rfl, rfl⟩
  have hempty : ∀ P, (initial : State cfg τ).handlerPlaces .empty P = [] := by
    intro P
    cases P <;> rfl
  refine ⟨.empty hempty, fun n => iff_of_false ?_ (Nat.not_lt_zero _), fun n P _ hn => ?_,
    fun n P _ hn => ?_⟩
  · rintro ⟨P, hP⟩
    rw [hempty] at hP
    cases hP
  · rw [hempty] at hn
    cases hn
  · rw [hempty] at hn
    cases hn

/-- A handler is pending on its own queue only. -/
theorem cq_of_pending (h : (contextSystem cfg τ).Reachable s) {q : QueueId}
    (hn : n ∈ s.pendingHandlers q) : (s.handler n).cq = q := by
  obtain ⟨e, he, hhandler⟩ := List.mem_filterMap.mp hn
  cases e with
  | handler m =>
    cases hhandler
    exact ((serversOk_of_reachable h).pending q _ he).1
  | inflightRpc | alarm => cases hhandler

theorem logOk_of_reachable (h : (handledSystem cfg τ).Reachable p) : p.1.LogOk p.2 := by
  refine h.invariant (I := fun p => p.1.LogOk p.2) ?_ fun p a p' hr hI _ hs =>
    hI.step (handlersOk_of_reachable hr) (handlersOk_of_reachable (hr.step trivial hs))
      (handled_change hr hs)
  rintro ⟨_, _⟩ ⟨rfl, rfl⟩
  exact ⟨List.nodup_nil, List.nodup_nil, fun n hn => by simp [HandlerLog.empty] at hn,
    fun n hn => absurd hn List.not_mem_nil⟩

/-- **A handler is in one place at a time**, in every interleaving: pending on its own queue, in
the `complete` of one worker, in the `post` of one thread, in the task queue, in the hands of one
worker, with its work going on elsewhere or completing on one thread, deleted, or left behind by a
work that was refused or stopped. -/
theorem handler_in_one_place (h : (handledSystem cfg τ).Reachable p) :
    (∀ n < p.1.nextHandler, ∃ P, (p.1.handlerPlaces p.2 P).count n = 1 ∧
      ∀ P', P' ≠ P → (p.1.handlerPlaces p.2 P').count n = 0) ∧
    (∀ n P, n ∈ p.1.handlerPlaces p.2 P → n < p.1.nextHandler) ∧
    ∀ n q, n ∈ p.1.handlerPlaces p.2 (.queue q) → (p.1.handler n).cq = q := by
  have hok := handlersOk_of_reachable h
  exact ⟨fun n hn => hok.linear.exists_unique_place ((hok.placed n).mpr hn),
    fun n P hn => hok.lt hn, fun n q hn => cq_of_pending (reachable_of_handled h) hn⟩

/-- A client makes a container with one work queue and a handler whose logic is a sender. -/
def makeSenderCalls : List (Act Unit) :=
  .call (.client ()) (.makeServer [[false]]) :: List.replicate 4 (go (.client ()))

/-- A step of worker `0` in which the works that it executes go on elsewhere. -/
def serveTurn (next : NextAnswer) : Act Unit := .work 0 ⟨false, next, true, false, .suspended⟩

/-- Worker `0` serves the request that it has been handed by posting and executing the detached
work, which completes on the thread of the client, and is handed the event of the answer. -/
def serveTurns : List (Act Unit) :=
  List.replicate 2 (serveTurn .timeout) ++ List.replicate 4 (go (.worker 0)) ++
    List.replicate 7 (serveTurn .timeout) ++
      [.call (.client ()) (.resume 0), go (.client ())] ++
        List.replicate 3 (serveTurn .timeout) ++
          [serveTurn (.gotEvent 1 true), serveTurn .timeout]

theorem handler_in_one_place_serveTurns : ∃ p : State oneThread Unit × HandlerLog,
    p.2.deleted = [0] ∧ p.1.handlerPlaces p.2 (.queue (.server 0 0)) = [1] ∧
    ∀ n < p.1.nextHandler, ∃ P, (p.1.handlerPlaces p.2 P).count n = 1 ∧
      ∀ P', P' ≠ P → (p.1.handlerPlaces p.2 P').count n = 0 := by
  let p := ((handledSystem oneThread Unit).exec (.initial, .empty)
    (makeSenderCalls ++ runCalls ++ handTurns ++ serveTurns)).get (by decide +kernel)
  have hp : (handledSystem oneThread Unit).Reachable p :=
    System.reachable_of_exec init_handled (Option.some_get _).symm
  exact ⟨p, by decide +kernel, by decide +kernel, (handler_in_one_place hp).1⟩

/-- **A handler only moves on.** Wherever it is, it goes from there along the stages of its life to
one place at a time, and never comes back. It makes one successor at most, calls `Finish` once at
most, and is deleted once at most. -/
theorem handler_moves_on (h : (handledSystem cfg τ).Reachable p)
    (hl : (handledSystem cfg τ).Leads (fun _ _ => True) p p') {n : ℕ} {P : HandlerPlace τ}
    (hn : n ∈ p.1.handlerPlaces p.2 P) :
    (∃ P', n ∈ p'.1.handlerPlaces p'.2 P' ∧
      (∀ Q, n ∈ p'.1.handlerPlaces p'.2 Q → Q = P') ∧
      Relation.ReflTransGen Advances (P, (p.1.handler n).deleteOnNextComplete)
        (P', (p'.1.handler n).deleteOnNextComplete) ∧
      (P' ≠ P → HandlerPlace.rank (P, (p.1.handler n).deleteOnNextComplete) <
        HandlerPlace.rank (P', (p'.1.handler n).deleteOnNextComplete))) ∧
    p'.2.served.count n ≤ 1 ∧ p'.2.finished.count n ≤ 1 ∧ p'.2.deleted.count n ≤ 1 := by
  have hrun : ∃ P', n ∈ p'.1.handlerPlaces p'.2 P' ∧
      Relation.ReflTransGen Advances (P, (p.1.handler n).deleteOnNextComplete)
        (P', (p'.1.handler n).deleteOnNextComplete) := by
    induction hl with
    | refl => exact ⟨P, hn, .refl⟩
    | tail hl hstep ih =>
      obtain ⟨P₁, hP₁, hadv⟩ := ih
      obtain ⟨a, -, hs⟩ := hstep
      have hr := h.leads hl
      have hmoves := ((handlersOk_of_reachable hr).step (handled_change hr hs)).2
      obtain ⟨P', hP', hlast⟩ := hmoves n P₁ hP₁
      exact ⟨P', hP', hadv.trans hlast.to_reflTransGen⟩
  obtain ⟨P', hP', hadv⟩ := hrun
  have hlinear := (handlersOk_of_reachable (h.leads hl)).linear
  have hlog := logOk_of_reachable (h.leads hl)
  refine ⟨⟨P', hP', fun Q hQ => hlinear.unique hQ hP', hadv, fun hne => ?_⟩,
    List.nodup_iff_count_le_one.mp hlog.served n, List.nodup_iff_count_le_one.mp hlog.finished n,
    List.nodup_iff_count_le_one.mp (hlinear.nodup .deleted) n⟩
  rcases rank_of_advances hadv with heq | hlt
  · exact absurd (congrArg Prod.fst heq).symm hne
  · exact hlt

theorem handler_moves_on_serveTurns : ∃ p p' : State oneThread Unit × HandlerLog,
    0 ∈ p.1.handlerPlaces p.2 (.entered 0) ∧ 0 ∈ p'.1.handlerPlaces p'.2 .deleted ∧
    p'.2.served = [0] ∧ p'.2.finished = [0] ∧ (∃ P', 0 ∈ p'.1.handlerPlaces p'.2 P' ∧
      Relation.ReflTransGen Advances (.entered 0, (p.1.handler 0).deleteOnNextComplete)
        (P', (p'.1.handler 0).deleteOnNextComplete)) ∧ p'.2.finished.count 0 ≤ 1 := by
  let S := handledSystem oneThread Unit
  let p := (S.exec (.initial, .empty) (makeSenderCalls ++ runCalls ++ handTurns)).get (by decide)
  have hp : S.Reachable p := System.reachable_of_exec init_handled (Option.some_get _).symm
  let p' := (S.exec p serveTurns).get (by decide +kernel)
  have hl : S.Leads (fun _ _ => True) p p' :=
    System.leads_of_exec (fun _ _ => trivial) (Option.some_get _).symm
  have hentered : 0 ∈ p.1.handlerPlaces p.2 (.entered 0) := by decide
  obtain ⟨⟨P', hP', -, hadv, -⟩, -, honce, -⟩ := handler_moves_on hp hl hentered
  exact ⟨p, p', hentered, by decide +kernel, by decide +kernel, by decide +kernel,
    ⟨P', hP', hadv⟩, honce⟩

end State

end Sgrpc
