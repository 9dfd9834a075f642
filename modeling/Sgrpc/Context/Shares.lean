import Sgrpc.Context.BusyQueues
import Sgrpc.Context.Completion
import Sgrpc.RoundRobin.Slots

/-!
# How the events are spread over the queues

`get_next_cq_` takes the queues in turn, with a counter of 64 bits that all threads share. An
observer who notes the queue that each `post` is given (`dealtSystem`) sees them in the order of the
counter, whatever the interleaving (`dealtOk_of_reachable`). So every index is one of a queue, and
the shares of two queues differ by at most one (`dealt_evenly`); once the counter has wrapped this
is so only if the number of queues divides `2 ^ 64`.
-/

namespace Sgrpc

open Interleaving RoundRobin

namespace State

variable {cfg : Config} {τ : Type*} {s s' : State cfg τ} {a : Act τ}

/-- The queues that have been given to the calls of `post`, after a step. -/
def recordDealt (dealt : List ℕ) (s : State cfg τ) (a : Act τ) (_ : State cfg τ) : List ℕ :=
  match a with
  | .api t _ =>
      match s.frame t with
      | some (.post _ _ (.decided true)) => dealt ++ [s.nextCqWriteIndex % cfg.nCqs]
      | _ => dealt
  | _ => dealt

end State

/-- The context with an observer of `get_next_cq_`. -/
def dealtSystem (cfg : Config) (τ : Type*) [DecidableEq τ] :
    System (State cfg τ × List ℕ) (Act τ) :=
  (contextSystem cfg τ).observed [] State.recordDealt

namespace State

variable {cfg : Config} {τ : Type*} {s s' : State cfg τ} {a : Act τ} {t : Tid τ} {dealt : List ℕ}

/-- The counter, and the queues that it has named. -/
structure DealtOk (s : State cfg τ) (dealt : List ℕ) : Prop where
  index : s.nextCqWriteIndex = dealt.length % 2 ^ 64
  dealt : dealt = (List.range dealt.length).map (slot (2 ^ 64) cfg.nCqs)

/-- A queue is given to a `post`. -/
theorem DealtOk.deal (h : s.DealtOk dealt)
    (hindex : s'.nextCqWriteIndex = (s.nextCqWriteIndex + 1) % 2 ^ 64) :
    s'.DealtOk (dealt ++ [s.nextCqWriteIndex % cfg.nCqs]) where
  index := by
    rw [hindex, h.index, Nat.mod_add_mod, List.length_append, List.length_singleton]
  dealt := by
    rw [List.length_append, List.length_singleton, List.range_succ, List.map_append, ← h.dealt,
      h.index]
    rfl

/-- Steps that name no queue. -/
theorem DealtOk.of_same (h : s.DealtOk dealt) (hindex : s'.nextCqWriteIndex = s.nextCqWriteIndex) :
    s'.DealtOk dealt :=
  ⟨hindex.trans h.index, h.dealt⟩

/-- A thread that is not in `get_next_cq_` names no queue. -/
theorem recordDealt_api {answer : ApiAnswer} {f : Frame} (hf : s.frame t = some f)
    (hnot : ∀ kind id, f ≠ .post kind id (.decided true)) :
    recordDealt dealt s (.api t answer) s' = dealt := by
  simp only [recordDealt, hf]
  split
  · next kind id heq => exact absurd (Option.some.inj heq) (hnot kind id)
  · rfl

variable [DecidableEq τ]

theorem DealtOk.step (h : s.DealtOk dealt) (hs : Step s a s') :
    s'.DealtOk (recordDealt dealt s a s') := by
  -- a step of another member function
  have hother : ∀ {t f answer}, s.frame t = some f →
      (∀ kind id, f ≠ .post kind id (.decided true)) → a = .api t answer →
      s'.nextCqWriteIndex = s.nextCqWriteIndex → s'.DealtOk (recordDealt dealt s a s') := by
    rintro t f answer hf hnot rfl hindex
    rw [recordDealt_api hf hnot]
    exact h.of_same hindex
  cases hs with
  | @call t c =>
    refine h.of_same ?_
    cases c with
    | postAt | resume =>
      simp only [begin]
      split <;> rfl
    | makeServer wired =>
      obtain ⟨cq, handler, nextHandler, hwire⟩ := wire_eq s s.nextId 0 wired
      simp only [begin, beginAttach, hwire]
      split <;> rfl
    | _ => rfl
  | @push _ _ _ _ _ pc' _ hf => cases pc' <;> exact hother hf (by simp) rfl rfl
  | @post t kind id pc answer hf =>
    rcases answer with ⟨slot, throws, reenters, stopped⟩
    rcases pc with - | (_ | _) | i | can
    · exact hother hf (by simp) rfl rfl
    · exact hother hf (by simp) rfl rfl
    · have hdealt : recordDealt dealt s (.api t ⟨slot, throws, reenters, stopped⟩)
          (s.postStep t kind id throws (.decided true)) =
            dealt ++ [s.nextCqWriteIndex % cfg.nCqs] := by
        simp only [recordDealt, hf]
      rw [hdealt]
      exact h.deal rfl
    · cases throws <;> exact hother hf (by simp) rfl rfl
    · exact hother hf (by simp) rfl rfl
  | runWhile hf hrun => cases hrun <;> exact hother hf (by simp) rfl rfl
  | stop hf hstop => cases hstop <;> exact hother hf (by simp) rfl rfl
  | attach hf hat => cases hat <;> exact hother hf (by simp) rfl rfl
  | notify hf hnot => cases hnot <;> exact hother hf (by simp) rfl rfl
  | @workEnd t h' answer hf =>
    obtain ⟨cq, hend⟩ := workEndStep_eq s t h' answer.stopped
    exact hother hf (by simp) rfl (by rw [hend]; rfl)
  | fatal => exact h.of_same rfl
  | work _ _ _ hloop =>
    obtain ⟨_, _, _, _, _, _, _, _, _, _, _, _, rfl, -⟩ := loopStep_eq hloop
    exact h.of_same rfl

theorem dealtOk_of_reachable {p : State cfg τ × List ℕ} (h : (dealtSystem cfg τ).Reachable p) :
    p.1.DealtOk p.2 := by
  refine h.invariant (I := fun p => p.1.DealtOk p.2) ?_ fun p a p' _ hI _ hs => ?_
  · rintro ⟨_, _⟩ ⟨rfl, rfl⟩
    exact ⟨rfl, rfl⟩
  · obtain ⟨hstep, hdealt⟩ := System.step_observed_iff.mp hs
    rw [hdealt]
    exact hI.step (step_spec hstep).2

/-- **The queues are used evenly**, in every interleaving: every `post` is given a queue of the
context, the `k`-th of them queue `k % 2 ^ 64 % n`, and as long as there are at most `2 ^ 64` of
them, or for ever when `n` is a power of two, the shares of two queues differ by one at most. -/
theorem dealt_evenly {p : State cfg τ × List ℕ} (h : (dealtSystem cfg τ).Reachable p) :
    (∀ k q, p.2[k]? = some q → q = k % 2 ^ 64 % cfg.nCqs ∧ q < cfg.nCqs) ∧
      (p.2.length ≤ 2 ^ 64 ∨ cfg.nCqs ∣ 2 ^ 64 → ∀ i < cfg.nCqs, ∀ j < cfg.nCqs,
        p.2.count i ≤ p.2.count j + 1) := by
  have hdealt := (dealtOk_of_reachable h).dealt
  constructor
  · intro k q hk
    obtain ⟨hlt, -⟩ := List.getElem?_eq_some_iff.mp hk
    rw [hdealt, List.getElem?_map, List.getElem?_range hlt] at hk
    cases hk
    exact ⟨rfl, slot_lt cfg.nCqs_pos⟩
  · intro hfit i hi j hj
    rw [hdealt]
    exact count_map_slot_le hfit hi hj

/-- Three factories are posted to two queues. -/
theorem dealt_evenly_postCalls : ∃ p : State twoQueues Unit × List ℕ, p.2 = [0, 1, 0] ∧
    (∀ k q, p.2[k]? = some q → q = k % 2 ^ 64 % 2 ∧ q < 2) ∧
      ∀ i < 2, ∀ j < 2, p.2.count i ≤ p.2.count j + 1 := by
  let S := dealtSystem twoQueues Unit
  let p := (S.exec (.initial, []) (postCalls ++ postCalls ++ postCalls)).get (by decide +kernel)
  have hinit : S.Init (.initial, []) := ⟨rfl, rfl⟩
  have hp : S.Reachable p := System.reachable_of_exec hinit (Option.some_get _).symm
  obtain ⟨hindex, heven⟩ := dealt_evenly hp
  have hdealt : p.2 = [0, 1, 0] := by decide +kernel
  exact ⟨p, hdealt, hindex, heven (Or.inl (by rw [hdealt]; decide))⟩

end State

end Sgrpc
