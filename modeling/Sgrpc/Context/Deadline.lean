import Sgrpc.Context.Join
import Mathlib.Tactic.Ring

/-!
# Deadlines and delays

What `post` makes of a deadline and of a delay. The overload for a deadline compares it with the
clock the wrong way round: it queues the thunk while the deadline is in the future, and makes an
alarm with a negative delay when it is past, so that it does what it should at the deadline itself
only (`timely_iff`). The delay is split into seconds and nanoseconds rounding towards zero, and
passed as if it were an instant of the monotonic clock (`alarm_time_iff`).
-/

namespace Sgrpc

/-! ### The time of an alarm -/

/-- `gpr_clock_type`. -/
inductive GprClockType where
  | GPR_CLOCK_MONOTONIC
  | GPR_CLOCK_REALTIME
  | GPR_CLOCK_PRECISE
  | GPR_TIMESPAN
  deriving DecidableEq

/-- `gpr_timespec`. -/
structure GprTimespec where
  clockType : GprClockType
  tvSec : ℤ
  tvNsec : ℤ
  deriving DecidableEq

/-- The nanoseconds of a second. -/
def nanosPerSecond : ℤ := 1000000000

/-- `duration_to_grp_timespec`. The cast to seconds rounds towards zero. -/
def durationToGrpTimespec (delta : ℤ) : GprTimespec :=
  let seconds := delta.tdiv nanosPerSecond
  let nanos := delta - seconds * nanosPerSecond
  ⟨.GPR_CLOCK_MONOTONIC, seconds, nanos⟩

namespace GprTimespec

/-- The nanoseconds are a proper fraction of a second. -/
def WellFormed (ts : GprTimespec) : Prop := 0 ≤ ts.tvNsec ∧ ts.tvNsec < nanosPerSecond

/-- The instant of the monotonic clock that `Alarm::Set` reads, in nanoseconds. -/
def instant (ts : GprTimespec) : Option ℤ :=
  match ts.clockType with
  | .GPR_CLOCK_MONOTONIC => some (ts.tvSec * nanosPerSecond + ts.tvNsec)
  | _ => none

end GprTimespec

theorem tvNsec_eq (delta : ℤ) :
    (durationToGrpTimespec delta).tvNsec = delta.tmod nanosPerSecond := by
  rw [Int.tmod_def, mul_comm]
  rfl

/-- The nanoseconds fit into the 32 bits of `tv_nsec`. -/
theorem natAbs_tvNsec_lt (delta : ℤ) :
    ((durationToGrpTimespec delta).tvNsec).natAbs < nanosPerSecond.natAbs := by
  rw [tvNsec_eq, Int.natAbs_tmod]
  exact Nat.mod_lt _ (by decide)

/-- The seconds and the nanoseconds add up to the delay. -/
theorem instant_durationToGrpTimespec (delta : ℤ) :
    (durationToGrpTimespec delta).instant = some delta := by
  refine congrArg some ?_
  show delta.tdiv nanosPerSecond * nanosPerSecond +
    (delta - delta.tdiv nanosPerSecond * nanosPerSecond) = delta
  ring

/-- Rounding towards zero leaves negative nanoseconds, unless the delay is a number of seconds. -/
theorem wellFormed_iff (delta : ℤ) :
    (durationToGrpTimespec delta).WellFormed ↔ 0 ≤ delta ∨ nanosPerSecond ∣ delta := by
  have hlt := natAbs_tvNsec_lt delta
  rw [GprTimespec.WellFormed]
  rw [tvNsec_eq] at hlt ⊢
  have hpos : (0 : ℤ) < nanosPerSecond := by decide
  constructor
  · rintro ⟨hnonneg, -⟩
    by_contra hnot
    obtain ⟨hneg, hdvd⟩ := not_or.mp hnot
    -- the remainder has the sign of the delay
    have hle : (-delta).tmod nanosPerSecond ≥ 0 := Int.tmod_nonneg _ (by omega)
    rw [Int.neg_tmod] at hle
    have hzero : delta.tmod nanosPerSecond = 0 := by omega
    exact hdvd (Int.dvd_of_tmod_eq_zero hzero)
  · intro h
    have hnonneg : 0 ≤ delta.tmod nanosPerSecond := by
      rcases h with hdelta | hdvd
      · exact Int.tmod_nonneg _ hdelta
      · rw [Int.tmod_eq_zero_of_dvd hdvd]
    exact ⟨hnonneg, by omega⟩

/-- The time of the `Alarm` that the call makes. -/
def PostKind.alarmTime : PostKind → Option GprTimespec
  | .rpc _ => none
  | .alarm delta => some (durationToGrpTimespec delta)

namespace State

variable {cfg : Config} {τ : Type*} [DecidableEq τ] {t : Tid τ}

/-- The thread has begun a call of `post` whose alarm is set to a well-formed time that denotes the
instant. -/
def AlarmAt (s : State cfg τ) (t : Tid τ) (instant : ℤ) : Prop :=
  ∃ kind id ts, s.frame t = some (.post kind id .counted) ∧ kind.alarmTime = some ts ∧
    ts.WellFormed ∧ ts.instant = some instant

/-- The alarm is set to the time that stands for the delay. -/
theorem alarmAt_iff {s : State cfg τ} {delta instant : ℤ} :
    (s.begin t (.postAfter delta)).AlarmAt t instant ↔
      (durationToGrpTimespec delta).WellFormed ∧ delta = instant := by
  have hf : (s.begin t (.postAfter delta)).frame t =
      some (.post (.alarm delta) s.nextId .counted) := Function.update_self ..
  constructor
  · rintro ⟨kind, id, ts, hf', hts, hwf, hinstant⟩
    rw [hf] at hf'
    cases hf'
    cases hts
    rw [instant_durationToGrpTimespec, Option.some_inj] at hinstant
    exact ⟨hwf, hinstant⟩
  · rintro ⟨hwf, rfl⟩
    exact ⟨_, _, _, hf, rfl, hwf, instant_durationToGrpTimespec delta⟩

/-- **The time of an alarm.** `post` with a delay sets the alarm to a well-formed time that denotes
the instant after the delay if and only if the monotonic clock reads zero and the delay is not
negative or a number of seconds. -/
theorem alarm_time_iff (s : State cfg τ) (t : Tid τ) (m delta : ℤ) :
    (s.begin t (.postAfter delta)).AlarmAt t (m + delta) ↔
      m = 0 ∧ (0 ≤ delta ∨ nanosPerSecond ∣ delta) := by
  rw [alarmAt_iff, wellFormed_iff, and_comm]
  exact and_congr_left fun _ => by omega

/-- An hour after the start of the clock, a delay of a second. -/
theorem exists_early_alarm : ¬ ∀ (s : State oneThread Unit) (t : Tid Unit) (m delta : ℤ), 0 ≤ m →
    -2 ^ 63 ≤ delta → m + delta < 2 ^ 63 →
    (s.begin t (.postAfter delta)).AlarmAt t (m + delta) := by
  intro hall
  have hset := hall .initial (.client ()) 3600000000000 1000000000 (by decide) (by decide)
    (by decide)
  exact absurd (alarmAt_iff.mp hset).2 (by decide)

/-! ### The overload for a deadline -/

/-- What `post` makes of a deadline when the clock reads `now`: it does as with the delay that is
left while the deadline is in the future, queues the thunk only when it is not, and makes no alarm
with a negative delay. -/
structure Timely (s : State cfg τ) (t : Tid τ) (now deadline : ℤ) : Prop where
  future : now < deadline →
    s.begin t (.postAt now deadline) = s.begin t (.postAfter (deadline - now))
  queued : ∀ f pc, (s.begin t (.postAt now deadline)).frame t = some (.push f pc) → deadline ≤ now
  delay : ∀ delta id pc,
    (s.begin t (.postAt now deadline)).frame t = some (.post (.alarm delta) id pc) → 0 ≤ delta

/-- While the deadline is not past, the thunk is queued. -/
theorem frame_postAt_of_le (s : State cfg τ) {now deadline : ℤ} (h : now ≤ deadline) :
    (s.begin t (.postAt now deadline)).frame t =
      some (.push ⟨s.nextId, .user⟩ (.counted ⟨s.nextId, .user⟩)) := by
  rw [begin, if_pos h]
  exact Function.update_self ..

/-- When it is past, an alarm is made. -/
theorem frame_postAt_of_not_le (s : State cfg τ) {now deadline : ℤ} (h : ¬ now ≤ deadline) :
    (s.begin t (.postAt now deadline)).frame t =
      some (.post (.alarm (deadline - now)) s.nextId .counted) := by
  rw [begin, if_neg h]
  exact Function.update_self ..

/-- **The overloads for a deadline and for a delay** agree if and only if the deadline is now. -/
theorem timely_iff (s : State cfg τ) (t : Tid τ) (now deadline : ℤ) :
    s.Timely t now deadline ↔ now = deadline := by
  constructor
  · intro h
    by_cases hle : now ≤ deadline
    · have hge := h.queued _ _ (frame_postAt_of_le s hle)
      omega
    · have hnonneg := h.delay _ _ _ (frame_postAt_of_not_le s hle)
      omega
  · rintro rfl
    refine ⟨fun hlt => absurd hlt (lt_irrefl now), fun _ _ _ => le_rfl, fun delta id pc hf => ?_⟩
    rw [frame_postAt_of_le s le_rfl] at hf
    cases hf

/-- A deadline one second from now. -/
theorem exists_untimely_post : ¬ ∀ (s : State oneThread Unit) (t : Tid Unit) (now deadline : ℤ),
    -2 ^ 63 ≤ deadline - now → deadline - now < 2 ^ 63 → s.Timely t now deadline := by
  intro hall
  have htimely := hall .initial (.client ()) 0 1000000000 (by decide) (by decide)
  exact absurd (htimely.queued _ _ (frame_postAt_of_le .initial (by decide))) (by decide)

end State

end Sgrpc
