import Sgrpc.Context.Join
import Sgrpc.Interleaving.Counting

/-!
# Posting to the completion queues

The two overloads of `post` that make an event. `within_cq_post_` counts the calls in progress
(`within_counts`); a call returns `true` exactly when it has made its event, and `false` exactly
when its factory was never invoked (`PostsOk`).
-/

namespace Sgrpc

open Interleaving

/-- The thread is in an overload of `post` that makes an event. -/
def InPost : Option Frame → Prop
  | some (.post _ _ _) => True
  | _ => False

theorem PostKind.event_inj {kind kind' : PostKind} {id id' : ℕ}
    (h : kind.event id = kind'.event id') : id = id' := by
  cases kind <;> cases kind' <;> simp_all [PostKind.event]

namespace State

variable {cfg : Config} {τ : Type*} {s s' : State cfg τ} {a : Act τ} {t : Tid τ} {w : ℕ}

/-! ### What a step does to the posts -/

/-- What the posts are about is the same in both states, but for numbers handed out. -/
structure SamePosts (s s' : State cfg τ) : Prop where
  within : s'.withinCqPost = s.withinCqPost
  posted : s'.posted = s.posted
  invoked : s'.invoked = s.invoked
  made : s'.made = s.made
  nextId : s.nextId ≤ s'.nextId
  post : ∀ t kind id pc, s'.frame t = some (.post kind id pc) ↔ s.frame t = some (.post kind id pc)

/-- Every thread stays where it is. -/
theorem SamePosts.of_frame_eq (hframe : s'.frame = s.frame)
    (hwithin : s'.withinCqPost = s.withinCqPost) (hposted : s'.posted = s.posted)
    (hinvoked : s'.invoked = s.invoked) (hmade : s'.made = s.made)
    (hid : s.nextId ≤ s'.nextId) : SamePosts s s' :=
  ⟨hwithin, hposted, hinvoked, hmade, hid, fun _ _ _ _ => by rw [hframe]⟩

variable [DecidableEq τ]

/-- A thread moves on outside of these overloads of `post`. -/
theorem SamePosts.of_frame {f : Option Frame} (hframe : s'.frame = Function.update s.frame t f)
    (hold : ¬ InPost (s.frame t)) (hnew : ¬ InPost f) (hwithin : s'.withinCqPost = s.withinCqPost)
    (hposted : s'.posted = s.posted) (hinvoked : s'.invoked = s.invoked) (hmade : s'.made = s.made)
    (hid : s.nextId ≤ s'.nextId) : SamePosts s s' where
  within := hwithin
  posted := hposted
  invoked := hinvoked
  made := hmade
  nextId := hid
  post u kind id pc := by
    rw [hframe, update_frame_iff]
    constructor
    · rintro (⟨-, hf⟩ | ⟨-, hu⟩)
      · rw [hf] at hnew
        exact absurd trivial hnew
      · exact hu
    · intro hu
      refine Or.inr ⟨?_, hu⟩
      rintro rfl
      rw [hu] at hold
      exact hold trivial

/-- A step, as the posts see it. -/
inductive PostChange (s : State cfg τ) : Act τ → State cfg τ → Prop
  | same {a : Act τ} {s' : State cfg τ} : SamePosts s s' → PostChange s a s'
  | call {t : Tid τ} {c : Call} {kind : PostKind} : s.frame t = none →
      PostChange s (.call t c) (s.beginPost t kind)
  | post {t : Tid τ} {kind : PostKind} {id : ℕ} {pc : PostPc} {answer : ApiAnswer} :
      s.frame t = some (.post kind id pc) →
      PostChange s (.api t answer) (s.postStep t kind id answer.throws pc)

private theorem postChange_begin {c : Call} (h : s.frame t = none) :
    PostChange s (.call t c) (s.begin t c) := by
  have hold : ¬ InPost (s.frame t) := by
    rw [h]
    exact id
  cases c with
  | post | schedule | addNotifyAtStopped =>
    exact .same (.of_frame (t := t) rfl hold id rfl rfl rfl rfl (Nat.le_succ _))
  | postAt now deadline =>
    simp only [begin]
    split
    · exact .same (.of_frame (t := t) rfl hold id rfl rfl rfl rfl (Nat.le_succ _))
    · exact .call h
  | postAfter | postRpc | startRpc => exact .call h
  | resume h' =>
    refine .same ?_
    simp only [begin]
    split
    · exact .of_frame (t := t) rfl hold id rfl rfl rfl rfl le_rfl
    · exact .of_frame_eq rfl rfl rfl rfl rfl le_rfl
  | runWhile | stop => exact .same (.of_frame (t := t) rfl hold id rfl rfl rfl rfl le_rfl)
  | makeServer wired =>
    obtain ⟨cq, handler, nextHandler, hwire⟩ := wire_eq s s.nextId 0 wired
    refine .same ?_
    simp only [begin, beginAttach, hwire]
    split
    · exact .of_frame_eq rfl rfl rfl rfl rfl (Nat.le_succ _)
    · exact .of_frame (t := t) rfl hold id rfl rfl rfl rfl (Nat.le_succ _)

private theorem samePosts_afterPush {thunk : Thunk}
    {q : AtomicTaskStealingQueue Thunk cfg.nTaskQueues} {pc : PushPc Thunk}
    {ev : List (QueueEvent Thunk)} (h : ¬ InPost (s.frame t)) :
    SamePosts s (s.afterPush t thunk q pc ev) := by
  cases pc <;> exact .of_frame (t := t) rfl h id rfl rfl rfl rfl le_rfl

private theorem samePosts_loop {pc : WorkerPc} {answer : WorkAnswer}
    (hw : s.frame (.worker w) = none) (h : LoopStep s w answer pc s') : SamePosts s s' := by
  have hold : ¬ InPost (s.frame (.worker w)) := by
    rw [hw]
    exact id
  have hkeep : s'.withinCqPost = s.withinCqPost ∧ s'.posted = s.posted ∧
      s'.invoked = s.invoked ∧ s'.made = s.made ∧ s.nextId ≤ s'.nextId := by
    obtain ⟨_, _, _, _, _, _, _, _, _, _, _, _, rfl, hid⟩ := loopStep_eq h
    exact ⟨rfl, rfl, rfl, rfl, hid⟩
  obtain ⟨hwithin, hposted, hinvoked, hmade, hid⟩ := hkeep
  rcases frame_of_loopStep h with hf | ⟨hf, -⟩ | ⟨_, _, _, _, _, _, hf, -⟩
  · exact .of_frame_eq hf hwithin hposted hinvoked hmade hid
  · exact .of_frame hf hold id hwithin hposted hinvoked hmade hid
  · exact .of_frame hf hold id hwithin hposted hinvoked hmade hid

theorem postChange_of_step (h : Step s a s') : PostChange s a s' := by
  -- a step inside a member function that makes no event
  have hold : ∀ {t f}, s.frame t = some f → ¬ InPost (some f) → ¬ InPost (s.frame t) := by
    intro t f hf hnot
    rw [hf]
    exact hnot
  cases h with
  | call hmay => exact postChange_begin hmay.1
  | push hf => exact .same (samePosts_afterPush (hold hf id))
  | post hf => exact .post hf
  | @runWhile t _ _ _ hf hrun =>
    refine .same ?_
    cases hrun <;> exact .of_frame (t := t) rfl (hold hf id) id rfl rfl rfl rfl le_rfl
  | @stop t _ _ _ hf hstop =>
    refine .same ?_
    cases hstop with
    | yield | selfJoin | abort => exact .of_frame_eq rfl rfl rfl rfl rfl le_rfl
    | win | lose | giveUp | proceed | halt | range | join | joined | clear | lock | publish | keep
    | swap | unlock | done | notify | resume | relock | reaccept | rerefuse | repush | reunlock =>
      exact .of_frame (t := t) rfl (hold hf id) id rfl rfl rfl rfl le_rfl
    | reenter => exact .of_frame (t := t) rfl (hold hf id) id rfl rfl rfl rfl (Nat.le_succ _)
  | @attach t _ _ _ _ hf hat =>
    refine .same ?_
    cases hat <;> exact .of_frame (t := t) rfl (hold hf id) id rfl rfl rfl rfl le_rfl
  | @notify t _ _ _ _ hf hnot =>
    refine .same ?_
    cases hnot <;> exact .of_frame (t := t) rfl (hold hf id) id rfl rfl rfl rfl le_rfl
  | @workEnd t h answer hf =>
    obtain ⟨cq, hend⟩ := workEndStep_eq s t h answer.stopped
    rw [hend]
    exact .same (.of_frame (t := t) rfl (hold hf id) id rfl rfl rfl rfl le_rfl)
  | fatal => exact .same (.of_frame_eq rfl rfl rfl rfl rfl le_rfl)
  | work _ hw _ hloop => exact .same (samePosts_loop hw hloop)

/-- Numbers are handed out in order. -/
theorem nextId_of_step (h : Step s a s') : s.nextId ≤ s'.nextId := by
  cases postChange_of_step h with
  | same hsame => exact hsame.nextId
  | call => exact Nat.le_succ _
  | @post t kind id pc answer _ =>
    rcases pc with - | (_ | _) | i | can
    · exact le_rfl
    · exact le_rfl
    · exact le_rfl
    · rcases answer with ⟨slot, _ | _, reenters⟩ <;> exact le_rfl
    · exact le_rfl

/-! ### Posts in progress -/

/-- `within_cq_post_` counts the posts in progress, and those that an exception has left. -/
def WithinCounts (s : State cfg τ) : Prop :=
  ∃ k ≤ s.withinCqPost, Counts k fun t => InPost (s.frame t)

omit [DecidableEq τ] in
/-- Nobody is in such a `post` when the counter reads zero. -/
theorem WithinCounts.not_inPost (h : s.WithinCounts) (hzero : s.withinCqPost = 0) (t : Tid τ) :
    ¬ InPost (s.frame t) := by
  obtain ⟨k, hk, hcount⟩ := h
  obtain rfl : k = 0 := by omega
  exact hcount.not_of_zero t

omit [DecidableEq τ] in
theorem inPost_iff {f : Option Frame} : InPost f ↔ ∃ kind id pc, f = some (.post kind id pc) := by
  constructor
  · intro h
    rcases f with - | ⟨_ | ⟨kind, id, pc⟩ | _ | _ | _ | _⟩
    all_goals first | exact absurd h id | exact ⟨_, _, _, rfl⟩
  · rintro ⟨kind, id, pc, rfl⟩
    trivial

theorem WithinCounts.step (h : s.WithinCounts) (hs : PostChange s a s') : s'.WithinCounts := by
  obtain ⟨k, hk, hcount⟩ := h
  cases hs with
  | same hsame =>
    refine ⟨k, hsame.within ▸ hk, hcount.congr fun t => ?_⟩
    simp only [inPost_iff, hsame.post]
  | @call t _ kind hidle =>
    refine ⟨k + 1, Nat.succ_le_succ hk, ?_⟩
    exact hcount.update_enter (by rw [hidle]; exact id) trivial
  | @post t kind id pc answer hf =>
    have hin : InPost (s.frame t) := by
      rw [hf]
      trivial
    have hout : ¬ InPost none := fun h => h
    rcases pc with - | (_ | _) | i | can
    · exact ⟨k, hk, hcount.update (iff_of_true trivial hin)⟩
    · exact ⟨k, hk, hcount.update (iff_of_true trivial hin)⟩
    · exact ⟨k, hk, hcount.update (iff_of_true trivial hin)⟩
    · rcases answer with ⟨slot, _ | _, reenters⟩
      · exact ⟨k, hk, hcount.update (iff_of_true trivial hin)⟩
      · exact ⟨k - 1, (Nat.sub_le k 1).trans hk, hcount.update_leave hin hout⟩
    · exact ⟨k - 1, Nat.sub_le_sub_right hk 1, hcount.update_leave hin hout⟩

theorem withinCounts_of_reachable (h : (contextSystem cfg τ).Reachable s) : s.WithinCounts := by
  refine h.invariant ?_ fun _ _ _ _ hI _ hs => hI.step (postChange_of_step (step_spec hs).2)
  rintro _ rfl
  exact ⟨0, le_rfl, Counts.zero_of_forall_not fun t => id⟩

/-! ### What `post` returns -/

/-- What the calls have invoked, made and returned. -/
structure PostsOk (s : State cfg τ) : Prop where
  fresh : ∀ kind id, s.nextId ≤ id → s.posted (PostKind.event kind id) = none ∧
    PostKind.event kind id ∉ s.invoked ∧ PostKind.event kind id ∉ s.made
  running : ∀ t kind id pc, s.frame t = some (.post kind id pc) →
    id < s.nextId ∧ s.posted (kind.event id) = none ∧
      (kind.event id ∈ s.invoked ↔ pc = .leaving true) ∧
      (kind.event id ∈ s.made ↔ pc = .leaving true)
  unique : ∀ t u kind kind' id pc pc', s.frame t = some (.post kind id pc) →
    s.frame u = some (.post kind' id pc') → t = u
  returned : ∀ e b, s.posted e = some b → (b = true ↔ e ∈ s.made) ∧ (b = false ↔ e ∉ s.invoked)

omit [DecidableEq τ] in
theorem postsOk_initial : (initial : State cfg τ).PostsOk where
  fresh _ _ _ := ⟨rfl, by simp [initial], by simp [initial]⟩
  running _ _ _ _ hf := by cases hf
  unique _ _ _ _ _ _ _ hf := by cases hf
  returned _ _ h := by cases h

omit [DecidableEq τ] in
/-- The event of a call in progress is not that of another one. -/
theorem PostsOk.event_ne (h : s.PostsOk) {u : Tid τ} {kind kind' : PostKind} {id id' : ℕ}
    {pc pc' : PostPc} (hf : s.frame t = some (.post kind id pc))
    (hu : s.frame u = some (.post kind' id' pc')) (hne : u ≠ t) :
    kind'.event id' ≠ kind.event id := by
  intro heq
  obtain rfl := PostKind.event_inj heq
  exact hne (h.unique u t _ _ _ _ _ hu hf)

omit [DecidableEq τ] in
theorem PostsOk.of_same (h : s.PostsOk) (hsame : SamePosts s s') : s'.PostsOk where
  fresh kind id hid := by
    rw [hsame.posted, hsame.invoked, hsame.made]
    exact h.fresh kind id (hsame.nextId.trans hid)
  running t kind id pc hf := by
    rw [hsame.posted, hsame.invoked, hsame.made]
    obtain ⟨hid, hrest⟩ := h.running t kind id pc ((hsame.post t kind id pc).mp hf)
    exact ⟨hid.trans_le hsame.nextId, hrest⟩
  unique t u kind kind' id pc pc' hf hu :=
    h.unique t u kind kind' id pc pc' ((hsame.post ..).mp hf) ((hsame.post ..).mp hu)
  returned e b hb := by
    rw [hsame.invoked, hsame.made]
    exact h.returned e b (hsame.posted ▸ hb)

theorem PostsOk.call (h : s.PostsOk) {kind : PostKind} : (s.beginPost t kind).PostsOk where
  fresh kind' id hid := h.fresh kind' id (Nat.le_of_succ_le hid)
  running u kind' id pc hu := by
    rcases update_frame_iff.mp hu with ⟨-, heq⟩ | ⟨-, hu'⟩
    · cases heq
      obtain ⟨hposted, hinvoked, hmade⟩ := h.fresh kind s.nextId le_rfl
      exact ⟨Nat.lt_succ_self _, hposted, iff_of_false hinvoked (by simp),
        iff_of_false hmade (by simp)⟩
    · obtain ⟨hid, hrest⟩ := h.running u kind' id pc hu'
      exact ⟨Nat.lt_succ_of_lt hid, hrest⟩
  unique u v kind' kind'' id pc pc' hu hv := by
    rcases update_frame_iff.mp hu with ⟨hut, hu'⟩ | ⟨-, hu'⟩ <;>
      rcases update_frame_iff.mp hv with ⟨hvt, hv'⟩ | ⟨-, hv'⟩
    · rw [hut, hvt]
    · cases hu'
      exact absurd (h.running v _ _ _ hv').1 (Nat.lt_irrefl _)
    · cases hv'
      exact absurd (h.running u _ _ _ hu').1 (Nat.lt_irrefl _)
    · exact h.unique u v kind' kind'' id pc pc' hu' hv'
  returned := h.returned

/-- A call that goes on or ends makes no other one its equal. -/
theorem PostsOk.unique_of_update (h : s.PostsOk) {kind : PostKind} {id : ℕ} {pc : PostPc}
    {f : Option Frame} (hf : s.frame t = some (.post kind id pc))
    (hframe : s'.frame = Function.update s.frame t f)
    (hnew : ∀ kind' id' pc', f = some (.post kind' id' pc') → kind' = kind ∧ id' = id) :
    ∀ u v kind' kind'' id' qc qc', s'.frame u = some (.post kind' id' qc) →
      s'.frame v = some (.post kind'' id' qc') → u = v := by
  intro u v kind' kind'' id' qc qc' hu hv
  rw [hframe, update_frame_iff] at hu hv
  rcases hu with ⟨hut, hu'⟩ | ⟨-, hu'⟩ <;> rcases hv with ⟨hvt, hv'⟩ | ⟨-, hv'⟩
  · rw [hut, hvt]
  · obtain ⟨rfl, rfl⟩ := hnew _ _ _ hu'
    rw [hut]
    exact h.unique t v _ _ _ _ _ hf hv'
  · obtain ⟨rfl, rfl⟩ := hnew _ _ _ hv'
    rw [hvt]
    exact h.unique u t _ _ _ _ _ hu' hf
  · exact h.unique u v kind' kind'' id' qc qc' hu' hv'

/-- A step of a call that invokes no factory and does not return. -/
theorem PostsOk.move (h : s.PostsOk) {kind : PostKind} {id : ℕ} {pc pc' : PostPc}
    (hf : s.frame t = some (.post kind id pc))
    (hframe : s'.frame = Function.update s.frame t (some (.post kind id pc')))
    (hpc : pc ≠ .leaving true) (hpc' : pc' ≠ .leaving true) (hposted : s'.posted = s.posted)
    (hinvoked : s'.invoked = s.invoked) (hmade : s'.made = s.made)
    (hid : s'.nextId = s.nextId) : s'.PostsOk where
  fresh kind' id' hle := by
    rw [hposted, hinvoked, hmade]
    exact h.fresh kind' id' (hid ▸ hle)
  running u kind' id' qc hu := by
    rw [hposted, hinvoked, hmade, hid]
    rw [hframe, update_frame_iff] at hu
    rcases hu with ⟨-, heq⟩ | ⟨-, hu⟩
    · cases heq
      obtain ⟨hlt, hnone, hinv, hmd⟩ := h.running t kind id pc hf
      exact ⟨hlt, hnone, by simpa [hpc, hpc'] using hinv, by simpa [hpc, hpc'] using hmd⟩
    · exact h.running u kind' id' qc hu
  unique := by
    refine h.unique_of_update hf hframe fun _ _ _ heq => ?_
    cases heq
    exact ⟨rfl, rfl⟩
  returned e b hb := by
    rw [hinvoked, hmade]
    exact h.returned e b (hposted ▸ hb)

/-- The factory is invoked, and makes the event `xs` unless it throws. -/
theorem PostsOk.invoke (h : s.PostsOk) {kind : PostKind} {id i : ℕ} {f : Option Frame}
    {xs : List Event} (hf : s.frame t = some (.post kind id (.creating i)))
    (hframe : s'.frame = Function.update s.frame t f) (hposted : s'.posted = s.posted)
    (hinvoked : s'.invoked = s.invoked ++ [kind.event id]) (hmade : s'.made = s.made ++ xs)
    (hid : s'.nextId = s.nextId) (hnew : (f = none ∧ xs = []) ∨
      (f = some (.post kind id (.leaving true)) ∧ xs = [kind.event id])) : s'.PostsOk := by
  obtain ⟨hlt, hnone, -, -⟩ := h.running t kind id _ hf
  have hxs : ∀ e, e ≠ kind.event id → e ∉ xs := by
    rintro e he hmem
    rcases hnew with ⟨-, rfl⟩ | ⟨-, rfl⟩
    · simp at hmem
    · exact he (by simpa using hmem)
  constructor
  · intro kind' id' hle
    have hne : kind'.event id' ≠ kind.event id := by
      intro heq
      have hid' := PostKind.event_inj heq
      omega
    obtain ⟨hp, hi, hm⟩ := h.fresh kind' id' (hid ▸ hle)
    rw [hposted, hinvoked, hmade]
    simp [hp, hi, hm, hne, hxs _ hne]
  · intro u kind' id' qc hu
    rw [hposted, hinvoked, hmade, hid]
    rw [hframe, update_frame_iff] at hu
    rcases hu with ⟨-, heq⟩ | ⟨hne, hu⟩
    · rcases hnew with ⟨rfl, -⟩ | ⟨rfl, rfl⟩
      · cases heq
      · cases heq
        exact ⟨hlt, hnone, by simp, by simp⟩
    · obtain ⟨hlt', hnone', hinv', hmd'⟩ := h.running u kind' id' qc hu
      have hev := h.event_ne hf hu hne
      exact ⟨hlt', hnone', by simpa [hev] using hinv', by simpa [hxs _ hev] using hmd'⟩
  · refine h.unique_of_update hf hframe fun _ _ _ heq => ?_
    rcases hnew with ⟨rfl, -⟩ | ⟨rfl, -⟩
    · cases heq
    · cases heq
      exact ⟨rfl, rfl⟩
  · intro e b hb
    rw [hposted] at hb
    have hev : e ≠ kind.event id := by
      rintro rfl
      rw [hnone] at hb
      cases hb
    rw [hinvoked, hmade]
    simpa [hev, hxs _ hev] using h.returned e b hb

/-- The call returns. -/
theorem PostsOk.leave (h : s.PostsOk) {kind : PostKind} {id : ℕ} {can throws : Bool}
    (hf : s.frame t = some (.post kind id (.leaving can))) :
    (s.postStep t kind id throws (.leaving can)).PostsOk := by
  obtain ⟨hlt, -, hinv, hmd⟩ := h.running t kind id _ hf
  have hposted : ∀ e, e ≠ kind.event id →
      Function.update s.posted (kind.event id) (some can) e = s.posted e :=
    fun e he => Function.update_of_ne he ..
  constructor
  · intro kind' id' hle
    have hne : kind'.event id' ≠ kind.event id := by
      intro heq
      have hid' := PostKind.event_inj heq
      exact absurd (hlt.trans_le hle) (by omega)
    obtain ⟨hp, hi, hm⟩ := h.fresh kind' id' hle
    exact ⟨(hposted _ hne).trans hp, hi, hm⟩
  · intro u kind' id' qc hu
    rcases update_frame_iff.mp hu with ⟨-, heq⟩ | ⟨hne, hu'⟩
    · cases heq
    · obtain ⟨hlt', hnone', hrest⟩ := h.running u kind' id' qc hu'
      exact ⟨hlt', (hposted _ (h.event_ne hf hu' hne)).trans hnone', hrest⟩
  · exact h.unique_of_update hf rfl fun _ _ _ heq => by cases heq
  · intro e b hb
    rcases eq_or_ne e (kind.event id) with rfl | he
    · have hb' : can = b := by simpa [postStep] using hb
      subst hb'
      refine ⟨?_, ?_⟩
      · cases can <;> simpa [postStep, setFrame] using hmd
      · cases can <;> simpa [postStep, setFrame] using hinv
    · exact h.returned e b ((hposted e he).symm.trans hb)

theorem PostsOk.step (h : s.PostsOk) (hs : PostChange s a s') : s'.PostsOk := by
  cases hs with
  | same hsame => exact h.of_same hsame
  | call => exact h.call
  | @post t kind id pc answer hf =>
    rcases pc with - | (_ | _) | i | can
    · exact h.move hf rfl (by simp) (by simp) rfl rfl rfl rfl
    · exact h.move hf rfl (by simp) (by simp) rfl rfl rfl rfl
    · exact h.move hf rfl (by simp) (by simp) rfl rfl rfl rfl
    · rcases answer with ⟨slot, _ | _, reenters⟩
      · exact h.invoke hf rfl rfl rfl rfl rfl (Or.inr ⟨rfl, rfl⟩)
      · exact h.invoke hf rfl rfl rfl (List.append_nil _).symm rfl (Or.inl ⟨rfl, rfl⟩)
    · exact h.leave hf

theorem postsOk_of_reachable (h : (contextSystem cfg τ).Reachable s) : s.PostsOk := by
  refine h.invariant ?_ fun _ _ _ _ hI _ hs => hI.step (postChange_of_step (step_spec hs).2)
  rintro _ rfl
  exact postsOk_initial

end State

end Sgrpc
