import Mathlib.Tactic.IntervalCases
import TcpServer.Network.Address

/-!
# Dates of the access log

`AccessLogDateTimeFormatter::fromTime` keeps the string of the last call. In the same second it
writes the milliseconds over the old ones, so the string it builds on is the one that the last call
returned. The formatting of times is a parameter; of the format used here it is needed only that the
milliseconds are three digits before the last character (`MillisecondFormat`).

Times are nanoseconds since the epoch, of which the source takes the milliseconds; indexing the
string past its front is undefined in C++ and gives nothing here (`assign`). That it does not happen
is a part of `fromTime_spec`, and it rests on the same invariant as the result: what is cached is
what was formatted for the cached second (`Valid`). The string of the last call, not a fixed one, is
what the next call overwrites, so the invariant has to be carried over the calls
(`results_of_valid`), and `results_eq` says what all of them return.
-/

namespace TcpServer.Common

open Network

/-- `std::chrono::duration_cast`, of nanoseconds since the epoch. -/
def epochTimeMs (systemTime : ℕ) : ℕ := systemTime / 1000000

/-- The second that the cache is asked for. -/
def epochTimeSeconds (systemTime : ℕ) : ℕ := epochTimeMs systemTime / 1000

/-- `'0' + n`. -/
def zeroPlus (n : ℕ) : Char := Char.ofNat (48 + n)

/-- An assignment to a character of a string, which must be there. -/
def assign (s : Text) (i : ℕ) (c : Char) : Option Text :=
  if i < s.length then some (s.set i c) else none

namespace AccessLogDateTimeFormatter

/-- `getDefaultDateFormat`. -/
def defaultDateFormat : Text := "%Y-%m-%dT%H:%M:%E3SZ".toList

/-- The state of a thread. -/
structure CachedTime where
  /-- The second that was formatted last. -/
  epochTimeSeconds : ℕ := 0
  /-- The string that was returned last. -/
  formattedTime : Text := []

/-- The digits in the `.000Z` at the end of the string are overwritten. With less than four
characters the offset would wrap around to a place behind the end. -/
def overwriteMilliseconds (formattedTime : Text) (epochTimeMs : ℕ) : Option Text :=
  if formattedTime.length < 4 then none
  else do
    let offset := formattedTime.length - 4
    let msec := epochTimeMs % 1000
    let formattedTime ← assign formattedTime offset (zeroPlus (msec / 100))
    let msec := msec % 100
    let formattedTime ← assign formattedTime (offset + 1) (zeroPlus (msec / 10))
    let msec := msec % 10
    assign formattedTime (offset + 2) (zeroPlus msec)

/-- `AccessLogDateTimeFormatter::fromTime`: the string, which is the one that is cached then. -/
def fromTime (formatTime : Text → ℕ → Text) (cachedTime : CachedTime) (systemTime : ℕ) :
    Option CachedTime :=
  if cachedTime.formattedTime.isEmpty ∨ cachedTime.epochTimeSeconds ≠
    epochTimeSeconds systemTime then
    some { epochTimeSeconds := epochTimeSeconds systemTime,
           formattedTime := formatTime defaultDateFormat systemTime }
  else
    (overwriteMilliseconds cachedTime.formattedTime (epochTimeMs systemTime)).map
      fun formattedTime ↦
      { cachedTime with formattedTime }

/-- The results of calls one after the other. -/
def results (formatTime : Text → ℕ → Text) : CachedTime → List ℕ → Option (List Text)
  | _, [] => some []
  | cachedTime, t :: ts =>
    (fromTime formatTime cachedTime t).bind fun cachedTime ↦
      (results formatTime cachedTime ts).map (cachedTime.formattedTime :: ·)

/-- Times in the same second are formatted alike, up to the three digits of the milliseconds before
the final `Z`. -/
structure MillisecondFormat (formatTime : Text → ℕ → Text) (upToSeconds : ℕ → Text) : Prop where
  /-- Up to the seconds the text depends on the second alone, and the milliseconds are digits. -/
  eq_append : ∀ t, formatTime defaultDateFormat t = upToSeconds (t / 1000000000) ++
    [Nat.digitChar (t / 100000000 % 10), Nat.digitChar (t / 10000000 % 10),
      Nat.digitChar (t / 1000000 % 10), 'Z']

variable {formatTime : Text → ℕ → Text} {upToSeconds : ℕ → Text} {cachedTime : CachedTime}

/-- The digits that the source makes by adding to `'0'`. -/
theorem zeroPlus_eq_digitChar {n : ℕ} (h : n < 10) : zeroPlus n = n.digitChar := by
  interval_cases n <;> rfl

/-- An assignment replaces one character and leaves the rest. -/
theorem assign_append (s : Text) (c d : Char) (rest : Text) :
    assign (s ++ c :: rest) s.length d = some (s ++ d :: rest) := by
  rw [assign, if_pos (by rw [List.length_append, List.length_cons]; omega),
    List.set_append_right _ _ le_rfl, Nat.sub_self]
  rfl

/-- The three digits before the last character are written over. -/
theorem overwriteMilliseconds_append (s : Text) (c₁ c₂ c₃ z : Char) (ms : ℕ) :
    overwriteMilliseconds (s ++ [c₁, c₂, c₃, z]) ms =
      some (s ++ [zeroPlus (ms % 1000 / 100), zeroPlus (ms % 1000 % 100 / 10),
        zeroPlus (ms % 1000 % 100 % 10), z]) := by
  have hlength : (s ++ [c₁, c₂, c₃, z]).length = s.length + 4 := List.length_append
  have hsecond := assign_append (s ++ [zeroPlus (ms % 1000 / 100)]) c₂
    (zeroPlus (ms % 1000 % 100 / 10)) [c₃, z]
  have hthird := assign_append (s ++ [zeroPlus (ms % 1000 / 100), zeroPlus (ms % 1000 % 100 / 10)])
    c₃
    (zeroPlus (ms % 1000 % 100 % 10)) [z]
  simp only [List.length_append, List.length_cons, List.length_nil, List.append_assoc,
    List.cons_append, List.nil_append] at hsecond hthird
  rw [overwriteMilliseconds, hlength, if_neg (by omega), Nat.add_sub_cancel]
  show (assign _ _ _).bind _ = _
  rw [assign_append, Option.bind_some]
  show (assign _ _ _).bind _ = _
  rw [hsecond, Option.bind_some]
  exact hthird

/-- What is cached is empty, or what some time of the cached second would give. -/
def Valid (formatTime : Text → ℕ → Text) (cachedTime : CachedTime) : Prop :=
  cachedTime.formattedTime = [] ∨
    ∃ t, cachedTime.epochTimeSeconds = epochTimeSeconds t ∧
      cachedTime.formattedTime = formatTime defaultDateFormat t

/-- Both divisions together give the whole seconds. -/
theorem epochTimeSeconds_eq (t : ℕ) : epochTimeSeconds t = t / 1000000000 := by
  rw [epochTimeSeconds, epochTimeMs, Nat.div_div_eq_div_mul]

/-- One call: the string is as if computed afresh, and so is what is cached. -/
theorem fromTime_spec (h : MillisecondFormat formatTime upToSeconds)
    (hvalid : Valid formatTime cachedTime) (t : ℕ) :
    ∃ cachedTime', fromTime formatTime cachedTime t = some cachedTime' ∧
      cachedTime'.formattedTime = formatTime defaultDateFormat t ∧
        Valid formatTime cachedTime' := by
  rw [fromTime]
  split_ifs with hmiss
  · exact ⟨_, rfl, rfl, .inr ⟨t, rfl, rfl⟩⟩
  · obtain ⟨hempty, hsecond⟩ := not_or.1 hmiss
    obtain ⟨t', ht', hformatted⟩ := hvalid.resolve_left fun hnil ↦ hempty (List.isEmpty_iff.2 hnil)
    have hsame : t' / 1000000000 = t / 1000000000 := by
      rw [← epochTimeSeconds_eq, ← epochTimeSeconds_eq, ← ht', not_not.1 hsecond]
    have hoverwrite : overwriteMilliseconds cachedTime.formattedTime (epochTimeMs t) =
        some (formatTime defaultDateFormat t) := by
      rw [hformatted, h.eq_append t', h.eq_append t, hsame, overwriteMilliseconds_append,
        zeroPlus_eq_digitChar (by omega), zeroPlus_eq_digitChar (by omega),
          zeroPlus_eq_digitChar (by omega),
        epochTimeMs]
      -- The three remainders are the digits of the quotient.
      have h₁ : t / 1000000 % 1000 / 100 = t / 100000000 % 10 := by omega
      have h₂ : t / 1000000 % 1000 % 100 / 10 = t / 10000000 % 10 := by omega
      have h₃ : t / 1000000 % 1000 % 100 % 10 = t / 1000000 % 10 := by omega
      rw [h₁, h₂, h₃]
    rw [hoverwrite]
    exact ⟨_, rfl, rfl, .inr ⟨t, not_not.1 hsecond, rfl⟩⟩

/-- From a cache that is in order, every call of a sequence returns what formatting gives. -/
theorem results_of_valid (h : MillisecondFormat formatTime upToSeconds)
    (hvalid : Valid formatTime cachedTime) (ts : List ℕ) :
    results formatTime cachedTime ts = some (ts.map (formatTime defaultDateFormat)) := by
  induction ts generalizing cachedTime with
  | nil => rfl
  | cons t ts ih =>
    obtain ⟨cachedTime', hfrom, hformatted, hvalid'⟩ := fromTime_spec h hvalid t
    rw [results, hfrom, Option.bind_some, ih hvalid', hformatted]
    rfl

/-- **The cache is invisible.** Whatever the times of the calls on a thread are, every result is as
if computed afresh. -/
theorem results_eq (h : MillisecondFormat formatTime upToSeconds) (ts : List ℕ) :
    results formatTime {} ts = some (ts.map (formatTime defaultDateFormat)) :=
  results_of_valid h (.inl rfl) ts

/-- The first minute of 1970. -/
def firstMinute (s : ℕ) : Text :=
  "1970-01-01T00:00:".toList ++ [Nat.digitChar (s / 10 % 10), Nat.digitChar (s % 10), '.']

/-- Two times in the fifth second, one before, and the first once more. -/
theorem results_firstMinute :
    ∃ formatTime, MillisecondFormat formatTime firstMinute ∧
      results formatTime {} [5070000000, 5981999999, 4005000000, 5070000000] =
        some ["1970-01-01T00:00:05.070Z".toList, "1970-01-01T00:00:05.981Z".toList,
          "1970-01-01T00:00:04.005Z".toList, "1970-01-01T00:00:05.070Z".toList] := by
  refine ⟨fun _ t ↦ firstMinute (t / 1000000000) ++
    [Nat.digitChar (t / 100000000 % 10), Nat.digitChar (t / 10000000 % 10),
      Nat.digitChar (t / 1000000 % 10), 'Z'], ⟨fun _ ↦ rfl⟩, ?_⟩
  exact (results_eq ⟨fun _ ↦ rfl⟩ _).trans (by decide)

end AccessLogDateTimeFormatter

end TcpServer.Common
