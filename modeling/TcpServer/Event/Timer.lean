import Mathlib.Algebra.Order.Ring.Int
import Mathlib.Tactic.Common

/-!
# Timers

A duration is converted to a `timeval` by truncating division and armed as the timeout of the
timer's event. The check for negative durations has an empty body, so that these are armed too. The
clip compares whole seconds, so that the durations of the last second before the clip keep a
fraction that those behind it lose (`converted_le_iff`).

The types of `std::chrono` and of `timeval` are 64 bits wide, and the conversion stays within them
(`inInt64_of_duration`). Durations of both periods are compared in microseconds, and so are the
timeouts, since a whole duration of one period and one of the other may end at the same time.
-/

namespace TcpServer.Event.Timer

/-- The two periods that timers are enabled with. -/
inductive Period
  | milli
  | micro
  deriving DecidableEq

/-- How many of the period make a second. -/
def Period.perSecond : Period → ℤ
  | .milli => 1000
  | .micro => 1000000

/-- What an `int64_t` can hold. -/
def InInt64 (x : ℤ) : Prop := -2 ^ 63 ≤ x ∧ x < 2 ^ 63

/-- A `std::chrono::duration` with a 64-bit count. -/
structure Duration (u : Period) where
  /-- `count()`. -/
  count : ℤ
  /-- The count has the type `int64_t`. -/
  inInt64 : InInt64 count

/-- A `timeval`. -/
@[ext]
structure Timeval where
  /-- `tv_sec`. -/
  sec : ℤ
  /-- `tv_usec`. -/
  usec : ℤ
  deriving DecidableEq

/-- `INT32_MAX`. -/
def int32Max : ℤ := 2147483647

/-- An `EnvoyException`, by its text. -/
structure EnvoyException where
  /-- What `what()` returns. -/
  what : List Char

variable {u u' : Period} {O : Type}

/-- `duration_cast<seconds>(d)` -/
def Duration.secs (d : Duration u) : ℤ := d.count.tdiv u.perSecond

/-- `duration_cast<microseconds>(d - secs)` -/
def Duration.usecs (d : Duration u) : ℤ := (d.count - d.secs * u.perSecond) *
    (1000000 / u.perSecond)

/-- The body of the check for negative durations is commented out, so that nothing is thrown. -/
def durationToTimeval (d : Duration u) : Except EnvoyException Timeval :=
  if d.secs > int32Max then .ok ⟨int32Max, 0⟩ else .ok ⟨d.secs, d.usecs⟩

/-- `pending` is the timeout that the event was last added with, `object` what is tracked
meanwhile. -/
structure TimerImpl (O : Type) where
  /-- The timeout of the pending event, none if it is not pending. -/
  pending : Option Timeval
  /-- The tracked object. -/
  object : Option O

/-- `internalEnableTimer`: the event is added with the timeout, and the object is tracked. -/
def internalEnableTimer (tv : Timeval) (object : Option O) (_timer : TimerImpl O) : TimerImpl O :=
  { pending := some tv, object }

/-- An exception leaves the timer as it was. -/
def enableTimer (d : Duration .milli) (object : Option O) (timer : TimerImpl O) :
    Except EnvoyException (TimerImpl O) := do
  let tv ← durationToTimeval d
  return internalEnableTimer tv object timer

/-- `enableHRTimer`. -/
def enableHRTimer (d : Duration .micro) (object : Option O) (timer : TimerImpl O) :
    Except EnvoyException (TimerImpl O) := do
  let tv ← durationToTimeval d
  return internalEnableTimer tv object timer

/-- The function that takes durations of this period. -/
def enable : (u : Period) → Duration u → Option O → TimerImpl O →
    Except EnvoyException (TimerImpl O)
  | .milli => enableTimer
  | .micro => enableHRTimer

/-! ### Lengths

Both periods divide a second into microseconds without a rest, so a duration is a whole number of
microseconds, and so is a `timeval`.
-/

/-- A duration in microseconds. -/
def Duration.micros (d : Duration u) : ℤ := d.count * (1000000 / u.perSecond)

/-- A `timeval` in microseconds. -/
def Timeval.micros (tv : Timeval) : ℤ := tv.sec * 1000000 + tv.usec

/-- The `timeval` of a duration. -/
def converted (d : Duration u) : Timeval := if d.secs > int32Max then ⟨int32Max, 0⟩
    else ⟨d.secs, d.usecs⟩

/-- Nothing is thrown, so the conversion has a result. -/
theorem durationToTimeval_eq (d : Duration u) : durationToTimeval d = .ok (converted d) :=
  (apply_ite Except.ok _ _ _).symm

/-- The timer is armed with that result, whatever the period. -/
theorem enable_eq (d : Duration u) (object : Option O) (timer : TimerImpl O) :
    enable u d object timer = .ok { pending := some (converted d), object } := by
  match u with
  | .milli =>
    show enableTimer d object timer = _
    rw [enableTimer, durationToTimeval_eq]
    rfl
  | .micro =>
    show enableHRTimer d object timer = _
    rw [enableHRTimer, durationToTimeval_eq]
    rfl

/-- Truncating division in terms of the flooring one. -/
theorem tdiv_cases (a k : ℤ) : 0 ≤ a ∧ a.tdiv k = a / k ∨ a < 0 ∧ a.tdiv k = -(-a / k) := by
  rcases Int.lt_or_le a 0 with ha | ha
  · refine Or.inr ⟨ha, ?_⟩
    rw [← Int.tdiv_eq_ediv_of_nonneg (by omega : 0 ≤ -a), Int.neg_tdiv, Int.neg_neg]
  · exact Or.inl ⟨ha, Int.tdiv_eq_ediv_of_nonneg ha⟩

/-- No value that is computed on the way leaves the range of its type. -/
theorem inInt64_of_duration (d : Duration u) :
    InInt64 d.secs ∧ InInt64 (d.secs * u.perSecond) ∧ InInt64 (d.count - d.secs * u.perSecond) ∧
      InInt64 d.usecs := by
  have hrange := d.inInt64
  have hsecs := tdiv_cases d.count u.perSecond
  simp only [InInt64] at hrange ⊢
  match u with
  | .milli =>
    simp only [Duration.secs, Duration.usecs, Period.perSecond] at hsecs ⊢
    omega
  | .micro =>
    simp only [Duration.secs, Duration.usecs, Period.perSecond] at hsecs ⊢
    omega

/-- The whole seconds and the rest, in terms of the microseconds. -/
theorem secs_usecs (d : Duration u) :
    (0 ≤ d.micros ∧ d.secs = d.micros / 1000000 ∨ d.micros < 0 ∧ d.secs = -(-d.micros / 1000000)) ∧
      d.usecs = d.micros - d.secs * 1000000 := by
  have hsecs := tdiv_cases d.count u.perSecond
  match u with
  | .milli =>
    simp only [Duration.secs, Duration.usecs, Duration.micros, Period.perSecond] at hsecs ⊢
    omega
  | .micro =>
    simp only [Duration.secs, Duration.usecs, Duration.micros, Period.perSecond] at hsecs ⊢
    omega

/-- A duration is negative in microseconds exactly if its count is. -/
theorem micros_neg_iff (d : Duration u) : d.micros < 0 ↔ d.count < 0 := by
  match u with
  | .milli =>
    simp only [Duration.micros, Period.perSecond]
    omega
  | .micro =>
    simp only [Duration.micros, Period.perSecond]
    omega

/-! ### What the documentation asks for

The documentation of the conversion promises an exception, a clip and exactness. These are put
together in one predicate on the result, so that a call meets the documentation or does not.
-/

/-- The clip in microseconds. -/
def clip : ℤ := int32Max * 1000000

/-- A negative duration is an error, one above the clip gives the clip, and any other one is
exact. -/
def Documented (d : Duration u) : Except EnvoyException Timeval → Prop
  | .error _ => d.count < 0
  | .ok tv => 0 ≤ d.count ∧ (clip < d.micros → tv = ⟨int32Max, 0⟩) ∧
      (d.micros ≤ clip → 0 ≤ tv.usec ∧ tv.usec < 1000000 ∧ tv.micros = d.micros)

/-- The timer is armed with the converted duration, and not at all if that is an error. -/
def Armed (d : Duration u) : Except EnvoyException (TimerImpl O) → Prop
  | .error _ => ∃ e, durationToTimeval d = .error e
  | .ok timer => ∃ tv, durationToTimeval d = .ok tv ∧ timer.pending = some tv

/-- The duration lies within the last second before the clip takes effect. -/
def InClippedSecond (d : Duration u) : Prop := clip < d.micros ∧ d.micros < clip + 1000000

/-- The conversion is what is documented for durations that are neither negative nor in the clipped
second. -/
theorem documented_iff (d : Duration u) :
    Documented d (durationToTimeval d) ↔ 0 ≤ d.count ∧ ¬InClippedSecond d := by
  have hspec := secs_usecs d
  have hneg := micros_neg_iff d
  rw [durationToTimeval_eq, converted]
  simp only [Documented, InClippedSecond, clip, int32Max, gt_iff_lt]
  split
  · simp only [Timeval.micros, true_and, implies_true]
    omega
  · simp only [Timeval.micros, Timeval.mk.injEq]
    omega

/-- Longer durations are armed for longer, except from within the clipped second to behind it. -/
theorem converted_le_iff (d : Duration u) (d' : Duration u') (h : d.micros ≤ d'.micros) :
    (converted d).micros ≤ (converted d').micros ↔
      ¬(InClippedSecond d ∧ clip + 1000000 ≤ d'.micros) := by
  have hspec := secs_usecs d
  have hspec' := secs_usecs d'
  rw [converted, converted]
  simp only [InClippedSecond, clip, int32Max, gt_iff_lt]
  split
  · split
    · simp only [Timeval.micros]
      omega
    · simp only [Timeval.micros]
      omega
  · split
    · simp only [Timeval.micros]
      omega
    · simp only [Timeval.micros]
      omega

/-- A timer does what is documented for exactly the durations that are not negative and not in the
clipped second. Of two durations the longer one is armed for longer unless the shorter one is in the
clipped second and the longer one behind it. Nothing that is computed on the way overflows. -/
theorem enable_documented_iff (d : Duration u) (object : Option O) (timer : TimerImpl O) :
    (Documented d (durationToTimeval d) ∧ Armed d (enable u d object timer) ↔
      0 ≤ d.count ∧ ¬InClippedSecond d) ∧
    (∀ u' (d' : Duration u'), d.micros ≤ d'.micros →
      ∃ tv tv', durationToTimeval d = .ok tv ∧ durationToTimeval d' = .ok tv' ∧
        (tv.micros ≤ tv'.micros ↔ ¬(InClippedSecond d ∧ clip + 1000000 ≤ d'.micros))) ∧
    InInt64 d.secs ∧ InInt64 (d.secs * u.perSecond) ∧
      InInt64 (d.count - d.secs * u.perSecond) ∧ InInt64 d.usecs := by
  refine ⟨?_, ?_, inInt64_of_duration d⟩
  · have harmed : Armed d (enable u d object timer) := by
      rw [enable_eq]
      exact ⟨converted d, durationToTimeval_eq d, rfl⟩
    rw [documented_iff, and_iff_left harmed]
  · exact fun u' d' h ↦ ⟨converted d, converted d', durationToTimeval_eq d, durationToTimeval_eq d',
      converted_le_iff d d' h⟩

/-- The duration with this count, if an `int64_t` can hold it. -/
def Duration.of (u : Period) (count : ℤ) (h : -9223372036854775808 ≤ count ∧
      count < 9223372036854775808) :
    Duration u := ⟨count, h⟩

/-- A duration of -1 ms is armed, and 2147483647.5 s are armed for longer than 2147483648 s. -/
theorem durationToTimeval_negative :
    durationToTimeval (.of .milli (-1) (by decide)) = .ok ⟨0, -1000⟩ ∧
    enableTimer (.of .milli (-1) (by decide)) none (⟨none, none⟩ : TimerImpl Unit) =
      .ok ⟨some ⟨0, -1000⟩, none⟩ ∧
    durationToTimeval (.of .milli 2147483647500 (by decide)) = .ok ⟨2147483647, 500000⟩ ∧
    durationToTimeval (.of .milli 2147483648000 (by decide)) = .ok ⟨2147483647, 0⟩ :=
  ⟨rfl, rfl, rfl, rfl⟩

end TcpServer.Event.Timer
