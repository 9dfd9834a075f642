import Sgrpc.Context.Queues
import Sgrpc.Context.Quiescence

/-!
# The counters of calls in progress

`within_cq_post_` and `in_push_` are decremented at the end of `post` and of `push`, and by no
destructor: a call that an exception leaves keeps its increment. An observer counts these calls
(`thrownSystem`). `within_cq_post_` is exact if and only if there has been none; `in_push_`, which
has 32 bits, is exact again whenever it has lost a multiple of `2 ^ 32` decrements
(`counters_iff`). A run in which it does not wrap (`Fits`) never makes up for a lost one.
-/

namespace Sgrpc

open Interleaving
open AtomicTaskStealingQueue (PushStep bump unbump)

/-- The thread is in `push`. -/
def InPush : Option Frame → Prop
  | some (.push _ _) => True
  | _ => False

/-- How many calls of `post` and of `push` an exception has left. -/
structure Thrown where
  posts : ℕ
  pushes : ℕ

namespace State

variable {cfg : Config} {τ : Type*} {s s' : State cfg τ} {a : Act τ} {t : Tid τ}

/-- The counters count the calls in progress. -/
structure CountersOk (s : State cfg τ) : Prop where
  within : Counts s.withinCqPost fun t => InPost (s.frame t)
  inPush : Counts s.taskQueue.inPush fun t => InPush (s.frame t)

/-- The factory, or the allocation of the `Alarm`, throws in this step of `post`. -/
def PostThrows (s : State cfg τ) : Act τ → Prop
  | .api t answer =>
      match s.frame t with
      | some (.post _ _ (.creating _)) => answer.throws = true
      | _ => False
  | _ => False

/-- The allocation of a slot of the sub-queue throws in this step of `push`. -/
def PushThrows (s : State cfg τ) : Act τ → Prop
  | .api t answer =>
      match s.frame t with
      | some (.push _ (.probe _ _ i)) => i ≠ cfg.nTaskQueues ∧ answer.slot = .badAlloc
      | _ => False
  | _ => False

/-- A call of `post` or `push` is left by an exception. -/
def Throws (s : State cfg τ) (a : Act τ) : Prop := s.PostThrows a ∨ s.PushThrows a

instance (s : State cfg τ) : DecidablePred s.PostThrows
  | .api t answer => by
      unfold PostThrows
      dsimp only
      split <;> infer_instance
  | .call _ _ | .work _ _ => isFalse id

instance (s : State cfg τ) : DecidablePred s.PushThrows
  | .api t answer => by
      unfold PushThrows
      dsimp only
      split <;> infer_instance
  | .call _ _ | .work _ _ => isFalse id

/-- The calls that an exception has left, after a step. -/
def recordThrown (n : Thrown) (s : State cfg τ) (a : Act τ) (_ : State cfg τ) : Thrown where
  posts := if s.PostThrows a then n.posts + 1 else n.posts
  pushes := if s.PushThrows a then n.pushes + 1 else n.pushes

/-- The counters exceed the numbers of calls in progress by `n`; `in_push_` wraps. -/
structure Leaks (s : State cfg τ) (n : Thrown) : Prop where
  within : Exceeds s.withinCqPost (fun t => InPost (s.frame t)) n.posts
  inPush : ExceedsMod unsignedSize s.taskQueue.inPush (fun t => InPush (s.frame t)) n.pushes

/-- A call of `push` begins. -/
def CallsPush (s : State cfg τ) : Act τ → Prop
  | .call _ .post | .call _ .schedule => True
  | .call _ (.postAt now deadline) => now ≤ deadline
  | .work w _ =>
      match s.worker w with
      | .completing _ _ _ (.handler h _ .armed) => (s.handler h).immediate = false
      | _ => False
  | _ => False

/-- `in_push_` does not wrap. -/
def Fits (s : State cfg τ) (a : Act τ) : Prop :=
  s.CallsPush a → s.taskQueue.inPush + 1 < unsignedSize

end State

/-- The context with an observer of the exceptions that leave a `post` or a `push`. -/
def thrownSystem (cfg : Config) (τ : Type*) [DecidableEq τ] :
    System (State cfg τ × Thrown) (Act τ) :=
  (contextSystem cfg τ).observed ⟨0, 0⟩ State.recordThrown

namespace State

variable {cfg : Config} {τ : Type*} {s s' : State cfg τ} {a : Act τ} {t : Tid τ}

theorem postThrows_iff : s.PostThrows a ↔ ∃ t kind id i answer, a = .api t answer ∧
    s.frame t = some (.post kind id (.creating i)) ∧ answer.throws = true := by
  constructor
  · intro h
    rcases a with _ | ⟨t, answer⟩ | _
    · exact h.elim
    · simp only [PostThrows] at h
      split at h
      · next kind id i hf => exact ⟨t, kind, id, i, answer, rfl, hf, h⟩
      · exact h.elim
    · exact h.elim
  · rintro ⟨t, kind, id, i, answer, rfl, hf, h⟩
    simpa only [PostThrows, hf] using h

theorem pushThrows_iff : s.PushThrows a ↔ ∃ t f g o i answer, a = .api t answer ∧
    s.frame t = some (.push f (.probe g o i)) ∧ i ≠ cfg.nTaskQueues ∧
      answer.slot = .badAlloc := by
  constructor
  · intro h
    rcases a with _ | ⟨t, answer⟩ | _
    · exact h.elim
    · simp only [PushThrows] at h
      split at h
      · next f g o i hf => exact ⟨t, f, g, o, i, answer, rfl, hf, h⟩
      · exact h.elim
    · exact h.elim
  · rintro ⟨t, f, g, o, i, answer, rfl, hf, h⟩
    simpa only [PushThrows, hf] using h

/-- An exception leaves a `push` from within only. -/
theorem PushThrows.inPush (h : s.PushThrows a) : InPush (s.frame a.thread) := by
  obtain ⟨t, f, g, o, i, answer, rfl, hf, -⟩ := pushThrows_iff.mp h
  rw [Act.thread, hf]
  trivial

variable [DecidableEq τ]

/-! ### `push` -/

/-- What a step does to `in_push_` and the threads in `push`. -/
inductive PushChange (s : State cfg τ) (a : Act τ) (s' : State cfg τ) : Prop
  | same : s'.taskQueue.inPush = s.taskQueue.inPush →
      (∀ t, InPush (s'.frame t) ↔ InPush (s.frame t)) → ¬ s.PushThrows a → PushChange s a s'
  | call {f : Thunk} {pc : PushPc Thunk} : s.CallsPush a → ¬ InPush (s.frame a.thread) →
      s'.frame = Function.update s.frame a.thread (some (.push f pc)) →
      s'.taskQueue.inPush = bump s.taskQueue.inPush → PushChange s a s'
  | leave {f : Option Frame} : InPush (s.frame a.thread) → ¬ InPush f →
      s'.frame = Function.update s.frame a.thread f →
      s'.taskQueue.inPush = unbump s.taskQueue.inPush → ¬ s.PushThrows a → PushChange s a s'
  | throw {f : Option Frame} : InPush (s.frame a.thread) → ¬ InPush f →
      s'.frame = Function.update s.frame a.thread f →
      s'.taskQueue.inPush = s.taskQueue.inPush → s.PushThrows a → PushChange s a s'

/-- A thread moves on outside of `push`. -/
theorem PushChange.of_frame {f : Option Frame}
    (hframe : s'.frame = Function.update s.frame a.thread f) (hold : ¬ InPush (s.frame a.thread))
    (hnew : ¬ InPush f) (hinPush : s'.taskQueue.inPush = s.taskQueue.inPush) :
    PushChange s a s' := by
  refine .same hinPush (fun u => ?_) fun hthrows => hold hthrows.inPush
  rw [hframe]
  exact inside_update_iff (iff_of_false hnew hold) u

/-- Every thread stays where it is. -/
theorem PushChange.of_frame_eq (hframe : s'.frame = s.frame)
    (hold : ¬ InPush (s.frame a.thread)) (hinPush : s'.taskQueue.inPush = s.taskQueue.inPush) :
    PushChange s a s' :=
  .same hinPush (fun u => by rw [hframe]) fun hthrows => hold hthrows.inPush

private theorem pushChange_begin {c : Call} (h : s.frame t = none) :
    PushChange s (.call t c) (s.begin t c) := by
  have hold : ¬ InPush (s.frame t) := by
    rw [h]
    exact id
  cases c with
  | post | schedule => exact .call trivial hold rfl rfl
  | postAt now deadline =>
    simp only [begin]
    split
    · next hle => exact .call hle hold rfl rfl
    · exact .of_frame rfl hold id rfl
  | postAfter | postRpc | startRpc | runWhile | stop | addNotifyAtStopped =>
    exact .of_frame rfl hold id rfl
  | makeServer wired =>
    obtain ⟨cq, handler, nextHandler, hwire⟩ := wire_eq s s.nextId 0 wired
    simp only [begin, beginAttach, hwire]
    split
    · exact .of_frame_eq rfl hold rfl
    · exact .of_frame rfl hold id rfl
  | resume h' =>
    simp only [begin]
    split
    · exact .of_frame rfl hold id rfl
    · exact .of_frame_eq rfl hold rfl

private theorem pushChange_loop {w : ℕ} {answer : WorkAnswer} {pc : WorkerPc}
    (hw : s.frame (.worker w) = none) (hpc : s.worker w = pc) (h : LoopStep s w answer pc s') :
    PushChange s (.work w answer) s' := by
  have hold : ¬ InPush (s.frame (.worker w)) := by
    rw [hw]
    exact id
  have hthunk (f : Thunk) (u : State cfg τ) (hframe : u.frame = (s.execute f answer.throws
      answer.work).frame) (hinPush : u.taskQueue.inPush = (s.execute f answer.throws
      answer.work).taskQueue.inPush) : PushChange s (.work w answer) u := by
    obtain ⟨cq, suspended, hexec⟩ := execute_eq s f answer.throws answer.work
    rw [hexec] at hframe hinPush
    exact .of_frame_eq hframe hold hinPush
  cases h with
  | stop => exact .of_frame rfl hold id rfl
  | @complete k i c what =>
    rcases what with ⟨⟨id⟩ | ⟨id⟩ | ⟨h'⟩, isOk⟩ | ⟨h', isOk, _ | _ | _⟩
    · exact .of_frame_eq rfl hold rfl
    · exact .of_frame_eq rfl hold rfl
    · exact .of_frame_eq rfl hold rfl
    · simp only [completeStep]
      obtain ⟨cq, handler, nextHandler, harm⟩ := arm_eq s (s.handler h').cq (s.handler h').immediate
      rw [harm]
      split <;> exact .of_frame_eq rfl hold rfl
    · simp only [completeStep]
      split
      · exact .of_frame_eq rfl hold rfl
      · next himm =>
        have hcalls : s.CallsPush (.work w answer) := by
          simpa only [CallsPush, hpc] using Bool.eq_false_of_not_eq_true himm
        exact .call hcalls hold rfl rfl
    · exact .of_frame_eq rfl hold rfl
  | @run thunk => exact hthunk thunk _ rfl rfl
  | @executeNext thunk => exact hthunk thunk _ rfl rfl
  | pop hpop => cases hpop <;> exact .of_frame_eq rfl hold rfl
  | eject heject => cases heject <;> exact .of_frame_eq rfl hold rfl
  | pass | stopped | pollNone | pollShutdown | pollEvent | nextSet | polled | leave | stay
  | popCall | popped | missed | ejectCall | ejected | exit => exact .of_frame_eq rfl hold rfl

/-- A step of `push`. -/
private theorem pushChange_push {f : Thunk} {pc : PushPc Thunk} {answer : ApiAnswer}
    (hf : s.frame t = some (.push f pc)) (h : s.pushStep t f pc answer.slot = some s') :
    PushChange s (.api t answer) s' := by
  have hin : InPush (s.frame t) := by
    rw [hf]
    trivial
  -- the thread stays in `push`
  have hsame : ∀ {u : State cfg τ} {pc' : PushPc Thunk}, ¬ s.PushThrows (.api t answer) →
      u.frame = Function.update s.frame t (some (.push f pc')) →
      u.taskQueue.inPush = s.taskQueue.inPush → PushChange s (.api t answer) u := by
    intro u pc' hnot hframe hinPush
    refine .same hinPush (fun v => ?_) hnot
    rw [hframe]
    exact inside_update_iff (iff_of_true trivial hin) v
  cases pc with
  | counted g =>
    have hnot : ¬ s.PushThrows (.api t answer) := by simp [PushThrows, hf]
    cases hd : s.taskQueue.isDone <;>
      · simp only [pushStep, AtomicTaskStealingQueue.pushStep, hd] at h
        cases h
        exact hsame hnot rfl rfl
  | next g =>
    simp only [pushStep, AtomicTaskStealingQueue.pushStep] at h
    cases h
    exact hsame (by simp [PushThrows, hf]) rfl rfl
  | probe g o i =>
    by_cases hi : i = cfg.nTaskQueues
    · simp only [pushStep, AtomicTaskStealingQueue.pushStep, if_pos hi] at h
      cases h
      exact hsame (by simp [PushThrows, hf, hi]) rfl rfl
    · simp only [pushStep, AtomicTaskStealingQueue.pushStep, if_neg hi] at h
      rcases answer with ⟨_ | _ | _, throws, reenters, stopped⟩
      · cases h
        exact hsame (by simp [PushThrows, hf]) rfl rfl
      · cases h
        exact hsame (by simp [PushThrows, hf]) rfl rfl
      · cases h
        exact .throw hin id rfl rfl (by simp [PushThrows, hf, hi])
  | leaving isDone g =>
    simp only [pushStep, AtomicTaskStealingQueue.pushStep] at h
    cases h
    exact .leave hin id rfl rfl (by simp [PushThrows, hf])
  | idle | returned | threw => cases h

theorem pushChange_of_step (h : s.step a = some s') : PushChange s a s' := by
  obtain ⟨hterm, hstep⟩ := step_spec h
  -- a step inside another member function
  have hold : ∀ {t f}, s.frame t = some f → ¬ InPush (some f) → ¬ InPush (s.frame t) := by
    intro t f hf hnot
    rw [hf]
    exact hnot
  cases hstep with
  | call hmay => exact pushChange_begin hmay.1
  | @push t thunk pc answer _ _ _ hf _ =>
    exact pushChange_push hf (by simpa [step, hterm, apiStep, hf] using h)
  | @post t kind id pc answer hf =>
    have hnot := hold hf (fun h => h)
    rcases answer with ⟨slot, _ | _, reenters, stopped⟩ <;> rcases pc with - | (_ | _) | i | can <;>
      exact .of_frame rfl hnot (fun h => h) rfl
  | runWhile hf hrun => cases hrun <;> exact .of_frame rfl (hold hf id) id rfl
  | stop hf hstop =>
    have hnot := hold hf id
    cases hstop with
    | yield | selfJoin | abort => exact .of_frame_eq rfl hnot rfl
    | win | lose | giveUp | proceed | halt | range | join | joined | clear | lock | publish | keep
    | swap | unlock | done | notify | resume | reenter | relock | reaccept | rerefuse | repush
    | reunlock => exact .of_frame rfl hnot id rfl
  | attach hf hat => cases hat <;> exact .of_frame rfl (hold hf id) id rfl
  | notify hf hnotify =>
    have hnot := hold hf (fun h => h)
    cases hnotify <;> exact .of_frame rfl hnot (fun h => h) rfl
  | @workEnd t h' answer hf =>
    obtain ⟨cq, hend⟩ := workEndStep_eq s t h' answer.stopped
    rw [hend]
    exact .of_frame rfl (hold hf (fun h => h)) (fun h => h) rfl
  | fatal _ hidle =>
    refine .of_frame_eq rfl ?_ rfl
    rw [Act.thread, hidle]
    exact id
  | work _ hw hpc hloop => exact pushChange_loop hw hpc hloop

/-! ### What the counters exceed by -/

/-- The observer counts what `in_push_` exceeds the number of calls by, up to wrapping. -/
theorem PushChange.exceedsMod {k : ℕ} (hs : PushChange s a s')
    (h : ExceedsMod unsignedSize s.taskQueue.inPush (fun t => InPush (s.frame t)) k) :
    ExceedsMod unsignedSize s'.taskQueue.inPush (fun t => InPush (s'.frame t))
      (if s.PushThrows a then k + 1 else k) := by
  cases hs with
  | same hinPush hframe hnot =>
    rw [if_neg hnot, hinPush]
    exact h.congr hframe
  | call _ hold hframe hinPush =>
    rw [if_neg fun hthrows => hold hthrows.inPush, hinPush, hframe]
    exact h.update_enter hold trivial
  | leave hold hnew hframe hinPush hnot =>
    rw [if_neg hnot, hinPush, hframe]
    exact h.update_leave (by decide) hold hnew
  | throw hold hnew hframe hinPush hthrows =>
    rw [if_pos hthrows, hinPush, hframe]
    exact h.update_abandon hold hnew

/-- The same without wrapping. -/
theorem PushChange.exceeds {k : ℕ} (hs : PushChange s a s') (hfits : s.Fits a)
    (h : Exceeds s.taskQueue.inPush (fun t => InPush (s.frame t)) k) :
    Exceeds s'.taskQueue.inPush (fun t => InPush (s'.frame t))
      (if s.PushThrows a then k + 1 else k) := by
  cases hs with
  | same hinPush hframe hnot =>
    rw [if_neg hnot, hinPush]
    exact h.congr hframe
  | call hcalls hold hframe hinPush =>
    have hbump : bump s.taskQueue.inPush = s.taskQueue.inPush + 1 := Nat.mod_eq_of_lt (hfits hcalls)
    rw [if_neg fun hthrows => hold hthrows.inPush, hinPush, hframe, hbump]
    exact h.update_enter hold trivial
  | leave hold hnew hframe hinPush hnot =>
    have hpos : 0 < s.taskQueue.inPush := h.pos hold
    have hunbump : unbump s.taskQueue.inPush = s.taskQueue.inPush - 1 := if_neg hpos.ne'
    rw [if_neg hnot, hinPush, hframe, hunbump]
    exact h.update_leave hold hnew
  | throw hold hnew hframe hinPush hthrows =>
    rw [if_pos hthrows, hinPush, hframe]
    exact h.update_abandon hold hnew

/-- A step of a thread that is in one of the other overloads of `post`. -/
theorem postStep_of_step {kind : PostKind} {id : ℕ} {pc : PostPc} {answer : ApiAnswer}
    (h : Step s (.api t answer) s') (hf : s.frame t = some (.post kind id pc)) :
    s' = s.postStep t kind id answer.throws pc := by
  cases h with
  | post hf' =>
    rw [hf] at hf'
    cases hf'
    rfl
  | push hf' | runWhile hf' | stop hf' | attach hf' | notify hf' | workEnd hf' =>
    rw [hf] at hf'
    cases hf'

/-- The observer counts what `within_cq_post_` exceeds the number of calls by. -/
theorem posts_of_step {j : ℕ} (h : Exceeds s.withinCqPost (fun t => InPost (s.frame t)) j)
    (hs : Step s a s') : Exceeds s'.withinCqPost (fun t => InPost (s'.frame t))
      (if s.PostThrows a then j + 1 else j) := by
  cases postChange_of_step hs with
  | same hsame =>
    have hnot : ¬ s.PostThrows a := by
      rw [postThrows_iff]
      rintro ⟨t, kind, id, i, answer, rfl, hf, hthrows⟩
      have hf' := (hsame.post t kind id _).mpr hf
      rw [postStep_of_step hs hf] at hf'
      simp [postStep, setFrame, hthrows] at hf'
    rw [if_neg hnot, hsame.within]
    refine h.congr fun t => ?_
    simp only [inPost_iff, hsame.post]
  | @call t c kind hidle =>
    have hnot : ¬ s.PostThrows (.call t c) := id
    rw [if_neg hnot]
    exact h.update_enter (by rw [hidle]; exact id) trivial
  | @post t kind id pc answer hf =>
    have hin : InPost (s.frame t) := by
      rw [hf]
      trivial
    have hstay (pc' : PostPc) : InPost (some (.post kind id pc')) ↔ InPost (s.frame t) :=
      iff_of_true trivial hin
    have hout : ¬ InPost none := fun h => h
    rcases pc with - | (_ | _) | i | can
    · rw [if_neg (by simp [PostThrows, hf])]
      exact h.update (hstay _)
    · rw [if_neg (by simp [PostThrows, hf])]
      exact h.update (hstay _)
    · rw [if_neg (by simp [PostThrows, hf])]
      exact h.update (hstay _)
    · rcases answer with ⟨slot, _ | _, reenters, stopped⟩
      · rw [if_neg (by simp [PostThrows, hf])]
        exact h.update (hstay _)
      · rw [if_pos (by simp [PostThrows, hf])]
        exact h.update_abandon hin hout
    · rw [if_neg (by simp [PostThrows, hf])]
      exact h.update_leave hin hout

theorem Leaks.step {n : Thrown} (h : s.Leaks n) (hs : s.step a = some s') :
    s'.Leaks (recordThrown n s a s') where
  within := posts_of_step h.within (step_spec hs).2
  inPush := (pushChange_of_step hs).exceedsMod h.inPush

omit [DecidableEq τ] in
theorem leaks_initial : (initial : State cfg τ).Leaks ⟨0, 0⟩ where
  within := Exceeds.zero_iff.mpr (Counts.zero_of_forall_not fun _ => id)
  inPush := .zero_of_forall_not fun _ => id

theorem leaks_of_reachable {p : State cfg τ × Thrown} (h : (thrownSystem cfg τ).Reachable p) :
    p.1.Leaks p.2 := by
  refine h.invariant (I := fun p => p.1.Leaks p.2) ?_ fun p a p' _ hI _ hs => ?_
  · rintro ⟨_, _⟩ ⟨rfl, rfl⟩
    exact leaks_initial
  · obtain ⟨hstep, hthrown⟩ := System.step_observed_iff.mp hs
    rw [hthrown]
    exact hI.step hstep

/-- **The counters of calls in progress.** `within_cq_post_` and `in_push_` are the numbers of
calls in progress if and only if no `post` has been left by an exception, the number of `push` calls
that have been is a multiple of `2 ^ 32`, and fewer than `2 ^ 32` are in progress. -/
theorem counters_iff {p : State cfg τ × Thrown} (h : (thrownSystem cfg τ).Reachable p) :
    p.1.CountersOk ↔ p.2.posts = 0 ∧ unsignedSize ∣ p.2.pushes ∧
      ∃ m < unsignedSize, Counts m fun t => InPush (p.1.frame t) := by
  have hleaks := leaks_of_reachable h
  have hpush := hleaks.inPush.counts_iff (by decide)
  constructor
  · intro hok
    obtain ⟨hfew, hdvd⟩ := hpush.mp hok.inPush
    exact ⟨hleaks.within.unique (Exceeds.zero_iff.mpr hok.within), hdvd, hfew⟩
  · rintro ⟨hposts, hdvd, hfew⟩
    have hwithin := hleaks.within
    rw [hposts] at hwithin
    exact ⟨Exceeds.zero_iff.mp hwithin, hpush.mpr ⟨hfew, hdvd⟩⟩

/-- A factory throws, and `within_cq_post_` counts a call that is over. -/
theorem exists_lost_decrement : ¬ ∀ (cfg : Config) (s : State cfg Unit),
    (contextSystem cfg Unit).Reachable s → s.CountersOk := by
  intro hall
  let S := contextSystem oneThread Unit
  let s := (S.exec .initial [.call (.client ()) .postRpc, go (.client ()), go (.client ()),
    .api (.client ()) ⟨.free, true, false, false⟩]).get (by decide)
  have hs : S.Reachable s := System.reachable_of_exec rfl (Option.some_get _).symm
  have hidle : ∀ t, s.frame t = none := by
    rintro (⟨⟩ | w) <;> rfl
  have hone : s.withinCqPost = 1 := by decide
  have hcount := (hall oneThread s hs).within
  have hzero : Counts 0 fun t => InPost (s.frame t) := by
    refine Counts.zero_of_forall_not fun t => ?_
    rw [hidle t]
    exact id
  rw [hone] at hcount
  exact absurd (hcount.symm.trans hzero) (by simp)

/-- The client posts a factory, which does not throw, and then one that does. -/
theorem counters_iff_postCalls : ∃ p : State oneThread Unit × Thrown, p.1.withinCqPost = 1 ∧
    p.1.made = [.inflightRpc 0] ∧ p.2.posts = 1 ∧ (p.1.CountersOk ↔
      p.2.posts = 0 ∧ unsignedSize ∣ p.2.pushes ∧
        ∃ m < unsignedSize, Counts m fun t => InPush (p.1.frame t)) := by
  let S := thrownSystem oneThread Unit
  let acts : List (Act Unit) := postCalls ++ [.call (.client ()) .postRpc, go (.client ()),
    go (.client ()), .api (.client ()) ⟨.free, true, false, false⟩]
  let p := (S.exec (.initial, ⟨0, 0⟩) acts).get (by decide)
  have hinit : S.Init (.initial, ⟨0, 0⟩) := ⟨rfl, rfl⟩
  have hp : S.Reachable p := System.reachable_of_exec hinit (Option.some_get _).symm
  exact ⟨p, by decide, by decide, by decide, counters_iff hp⟩

/-! ### Runs in which `in_push_` does not wrap -/

/-- The counters exceed the numbers of calls in progress by `n`. -/
structure Loses (s : State cfg τ) (n : Thrown) : Prop where
  within : Exceeds s.withinCqPost (fun t => InPost (s.frame t)) n.posts
  inPush : Exceeds s.taskQueue.inPush (fun t => InPush (s.frame t)) n.pushes

theorem Loses.step {n : Thrown} (h : s.Loses n) (hfits : s.Fits a) (hs : s.step a = some s') :
    s'.Loses (recordThrown n s a s') where
  within := posts_of_step h.within (step_spec hs).2
  inPush := (pushChange_of_step hs).exceeds hfits h.inPush

theorem loses_of_observed {p : State cfg τ × Thrown}
    (h : (thrownSystem cfg τ).ReachableUnder (fun p a => p.1.Fits a) p) : p.1.Loses p.2 := by
  refine h.invariant (I := fun p => p.1.Loses p.2) ?_ fun p a p' _ hI hfits hs => ?_
  · rintro ⟨_, _⟩ ⟨rfl, rfl⟩
    exact ⟨Exceeds.zero_iff.mpr (Counts.zero_of_forall_not fun _ => id),
      Exceeds.zero_iff.mpr (Counts.zero_of_forall_not fun _ => id)⟩
  · obtain ⟨hstep, hthrown⟩ := System.step_observed_iff.mp hs
    rw [hthrown]
    exact hI.step hfits hstep

theorem exists_loses (h : (contextSystem cfg τ).ReachableUnder Fits s) : ∃ n, s.Loses n := by
  obtain ⟨n, hn⟩ := h.exists_observed ⟨0, 0⟩ recordThrown
  exact ⟨n, loses_of_observed hn⟩

omit [DecidableEq τ] in
theorem Loses.countersOk_iff {n : Thrown} (h : s.Loses n) :
    s.CountersOk ↔ n.posts = 0 ∧ n.pushes = 0 := by
  constructor
  · intro hok
    exact ⟨h.within.unique (Exceeds.zero_iff.mpr hok.within),
      h.inPush.unique (Exceeds.zero_iff.mpr hok.inPush)⟩
  · rintro ⟨hposts, hpushes⟩
    have hwithin := h.within
    have hinPush := h.inPush
    rw [hposts] at hwithin
    rw [hpushes] at hinPush
    exact ⟨Exceeds.zero_iff.mp hwithin, Exceeds.zero_iff.mp hinPush⟩

/-- What is lost stays lost: counters that are exact after a step have been exact before it, and
the step has thrown nothing. -/
theorem CountersOk.of_step {n : Thrown} (hok : s'.CountersOk) (h : s.Loses n) (hfits : s.Fits a)
    (hs : s.step a = some s') : s.CountersOk ∧ ¬ s.Throws a := by
  obtain ⟨hposts, hpushes⟩ := (h.step hfits hs).countersOk_iff.mp hok
  simp only [recordThrown] at hposts hpushes
  have hnot : ¬ s.PostThrows a ∧ ¬ s.PushThrows a := by
    constructor
    · intro hthrows
      rw [if_pos hthrows] at hposts
      cases hposts
    · intro hthrows
      rw [if_pos hthrows] at hpushes
      cases hpushes
  rw [if_neg hnot.1] at hposts
  rw [if_neg hnot.2] at hpushes
  exact ⟨h.countersOk_iff.mpr ⟨hposts, hpushes⟩, not_or.mpr hnot⟩

end State

end Sgrpc
