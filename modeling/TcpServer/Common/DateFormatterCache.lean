import TcpServer.Common.DateFormatter
import Mathlib.Algebra.Ring.Nat

/-!
# The cache of formatted dates

All date formatters of a thread share a cache of formatted strings, by format. A call in another
second throws out what is from other seconds, so that all entries are of one second, and that is the
one whose length is kept in `seconds_length` (`CachedTime.Valid`). So a call gives what formatting
the segments gives, whatever calls there were before (`fromTime_eq`).

That is so as long as the offsets of the subseconds are numbers of `int32_t`. Behind a segment that
gets longer by two gigabytes when it is formatted, the digits are written to a wrong place
(`fromTime_years_ne`).

What is right is said without any cache, by the segments of the format formatted one by one
(`formatDirectly`). The step is `refresh_spec`, that the entry of a call is of its second and
formatted as it should be; the run is `valid_cacheAfter`. The two sides meet in the segments, since
the specifiers of the constructor and those of direct formatting come from one search of the format
(`flatMap_parseFrom`).

Negative times are left to the cache alone: the theorems about digits are for times since the epoch.
-/

namespace TcpServer.Common

open Network Numerals

/-- A formatted string, with the second it is of and the offsets of its specifiers. -/
structure Formatted where
  /-- The text with question marks for the subseconds. -/
  str : Text
  /-- The second it was formatted for. -/
  epochTimeSeconds : ℤ
  /-- Where each specifier is to go, relative to its position in the format. -/
  specifierOffsets : List ℤ

/-- The state of a thread. -/
structure CachedTime where
  /-- The length of the seconds in decimal, which the offsets of `%s` need. -/
  secondsLength : ℕ := 0
  /-- The entries, by format. -/
  formatted : List (Text × Formatted) := []

namespace CachedTime

/-- The entry of a format, if there is one. -/
def find (cachedTime : CachedTime) (rawFormatString : Text) : Option Formatted :=
  (cachedTime.formatted.find? fun item ↦ item.1 = rawFormatString).map Prod.snd

/-- What is of another second is thrown out, and the format is formatted at this one. Emplacing does
nothing if there is an entry already. -/
def refresh (formatTime : Text → ℤ → Text) (cachedTime : CachedTime) (formatter : DateFormatter)
    (epochTimeSeconds : ℤ) : CachedTime :=
  let unexpired := cachedTime.formatted.filter fun item ↦ item.2.epochTimeSeconds = epochTimeSeconds
  let secondsStr := formatInt epochTimeSeconds
  let prepared := prepareFrom formatTime epochTimeSeconds secondsStr 0 formatter.specifiers
  { secondsLength := secondsStr.length
    formatted :=
      if unexpired.any fun item ↦ item.1 = formatter.rawFormatString then unexpired
      else unexpired ++ [(formatter.rawFormatString,
        { str := prepared.1, epochTimeSeconds, specifierOffsets := prepared.2 })] }

end CachedTime

/-- The first half of `DateFormatter::fromTime`: the cache has the format at this second. -/
def DateFormatter.cache (formatTime : Text → ℤ → Text) (formatter : DateFormatter)
    (cachedTime : CachedTime)
    (epochTimeSeconds : ℤ) : CachedTime :=
  match cachedTime.find formatter.rawFormatString with
  | none => cachedTime.refresh formatTime formatter epochTimeSeconds
  | some item =>
    if item.epochTimeSeconds ≠ epochTimeSeconds then
      cachedTime.refresh formatTime formatter epochTimeSeconds
    else cachedTime

/-- `DateFormatter::fromTime`. The cache stays as it is if a string is too short for the digits. -/
def DateFormatter.fromTime (formatTime : Text → ℤ → Text) (formatter : DateFormatter)
    (cachedTime : CachedTime) (time : ℤ) : Option Text × CachedTime :=
  let cachedTime := formatter.cache formatTime cachedTime (time.tdiv 1000000000)
  ((cachedTime.find formatter.rawFormatString).bind fun formatted ↦
    replaceSubseconds (paddedNanoseconds time) cachedTime.secondsLength formatter.specifiers
      formatted.specifierOffsets formatted.str, cachedTime)

/-- The cache of a thread after calls on any formatters. -/
def cacheAfter (formatTime : Text → ℤ → Text) (calls : List (DateFormatter × ℤ)) : CachedTime :=
  calls.foldl (fun cachedTime call ↦ (call.1.fromTime formatTime cachedTime call.2).2) {}

/-! ### Direct formatting

What a call should give needs neither the cache nor positions: the segments of the format are
formatted one after the other, each with the text of the specifier behind it.
-/

/-- The segments that the pattern cuts a format into, each with the specifier behind it. -/
def segments (format : Text) : List (Text × Option Smatch) :=
  match _h : regexSearch format with
  | none => if format.isEmpty then [] else [(format, none)]
  | some matched => (matched.before, some matched) :: segments matched.suffix
termination_by format.length
decreasing_by exact length_suffix_lt _h

/-- The nine digits of the nanoseconds. -/
def nanosecondFraction (time : ℕ) : Text := lowDigits 10 9 time

/-- What a specifier stands for, and nothing where there is none. -/
def specifierText (time : ℕ) : Option Smatch → Text
  | none => []
  | some matched =>
    if matched.secondSpecifier.isEmpty then (nanosecondFraction time).take matched.width
    else decimal (time / 1000000000)

/-- The segments formatted one by one. -/
def formatDirectly (formatTime : Text → ℤ → Text) (format : Text) (time : ℕ) : Text :=
  (segments format).flatMap fun segment ↦
    formatTime segment.1 (time / 1000000000 : ℕ) ++ specifierText time segment.2

/-- The offsets of the subseconds are numbers of `int32_t`. -/
def OffsetsFit (formatTime : Text → ℤ → Text) (format : Text) (time : ℕ) : Prop :=
  let specifiers := (DateFormatter.mk format).specifiers
  let seconds := time / 1000000000
  ∀ item ∈ specifiers.zip (exactOffsets formatTime seconds (decimal seconds) 0 specifiers),
    0 < item.1.width ∧ item.1.second = false → -2 ^ 31 ≤ item.2 ∧ item.2 < 2 ^ 31

variable {formatTime : Text → ℤ → Text} {cachedTime : CachedTime} {formatter : DateFormatter}
    {time : ℕ}

/-- Where nothing is found, the format is one segment, unless it is empty. -/
theorem segments_of_eq_none {format : Text} (h : regexSearch format = none) :
    segments format = if format.isEmpty then [] else [(format, none)] := by
  rw [segments]
  split
  · rfl
  · rename_i matched hsome
    exact absurd (h.symm.trans hsome) (Option.some_ne_none matched).symm

/-- A match ends a segment, and the segments go on behind it. -/
theorem segments_of_eq_some {format : Text} {matched : Smatch}
    (h : regexSearch format = some matched) :
    segments format = (matched.before, some matched) :: segments matched.suffix := by
  rw [segments]
  split
  · rename_i hnone
    exact absurd (h.symm.trans hnone) (Option.some_ne_none matched)
  · rename_i matched' hsome
    obtain rfl : matched = matched' := Option.some.inj (h.symm.trans hsome)
    rfl

/-- The specifiers give the segments back. -/
theorem flatMap_parseFrom (step : ℕ) (format : Text) (time : ℕ) :
    ((parseFrom step format).flatMap fun specifier ↦
      formatTime specifier.segment (time / 1000000000 : ℕ) ++
        specifier.final (decimal (time / 1000000000)) (nanosecondFraction time)) =
      formatDirectly formatTime format time := by
  induction format using regexSearch_induction generalizing step with
  | none format h =>
    rw [formatDirectly, parseFrom_of_eq_none h, segments_of_eq_none h]
    split_ifs <;> rfl
  | some format matched h ih =>
    rw [formatDirectly, parseFrom_of_eq_some h, segments_of_eq_some h, List.flatMap_cons,
      List.flatMap_cons, ih, formatDirectly]
    refine congrArg (· ++ _) ?_
    by_cases hsecond : matched.secondSpecifier.isEmpty
    · rw [Specifier.ofMatch, if_pos hsecond, specifierText, if_pos hsecond]
      rfl
    · rw [Specifier.ofMatch, if_neg hsecond, specifierText, if_neg hsecond]
      rfl

/-- The nanoseconds are the seconds and the fraction. -/
theorem paddedNanoseconds_eq (time : ℕ) :
    paddedNanoseconds time = decimal (time / 1000000000) ++ nanosecondFraction time := by
  rw [paddedNanoseconds, formatInt_natCast, decimal, decimal, nanosecondFraction]
  rcases Nat.lt_or_ge time (10 ^ 9) with hlt | hge
  · have hpad := replicate_append_toDigits (b := 10) (k := 10) (by decide) (by decide)
      (hlt.trans (by decide))
    have hzero : time / 1000000000 = 0 := Nat.div_eq_of_lt hlt
    have hlow : lowDigits 10 10 time = Nat.toDigits 10 0 ++ lowDigits 10 9 time := by
      rw [lowDigits_succ_left]
      show Nat.digitChar (time / 1000000000 % 10) :: _ = _
      rw [hzero]
      rfl
    rw [hzero, ← hlow, ← hpad]
    split_ifs with hlength
    · rfl
    · rw [Nat.sub_eq_zero_of_le (Nat.not_lt.1 hlength)]
      rfl
  · have happend : Nat.toDigits 10 time = Nat.toDigits 10 (time / 1000000000) ++
        lowDigits 10 9 time :=
      toDigits_eq_append (by decide) hge
    have hpos : 0 < (Nat.toDigits 10 (time / 1000000000)).length := Nat.length_toDigits_pos
    rw [happend, List.length_append, length_lowDigits, if_neg (by omega)]

/-! ### The cache

The invariant says of every entry what it was made from. The length of the seconds is kept once for
all entries, so they have to be of the same second whenever there are any.
-/

/-- Every entry is what formatting at its second gives, and that is the second whose length is
kept. -/
structure CachedTime.Valid (formatTime : Text → ℤ → Text) (cachedTime : CachedTime) : Prop where
  /-- An entry is what `prepareFrom` makes of its format at its second. -/
  prepared : ∀ item ∈ cachedTime.formatted, (item.2.str, item.2.specifierOffsets) =
    prepareFrom formatTime item.2.epochTimeSeconds (formatInt item.2.epochTimeSeconds) 0
      (DateFormatter.mk item.1).specifiers
  /-- The length that is kept is that of the second of every entry. -/
  secondsLength_eq : ∀ item ∈ cachedTime.formatted,
    cachedTime.secondsLength = (formatInt item.2.epochTimeSeconds).length

/-- What is found in the cache is in it. -/
theorem CachedTime.mem_of_find {rawFormatString : Text} {formatted : Formatted}
    (h : cachedTime.find rawFormatString = some formatted) :
    (rawFormatString, formatted) ∈ cachedTime.formatted := by
  obtain ⟨item, hitem, rfl⟩ := Option.map_eq_some_iff.1 h
  have hkey := List.find?_some hitem
  obtain rfl : item.1 = rawFormatString := of_decide_eq_true hkey
  exact List.mem_of_find?_eq_some hitem

/-- After a refresh, everything is of one second. -/
theorem CachedTime.mem_refresh (h : cachedTime.Valid formatTime) {s : ℤ} {item : Text × Formatted}
    (hitem : item ∈ (cachedTime.refresh formatTime formatter s).formatted) :
    item.2.epochTimeSeconds = s ∧ (item.2.str, item.2.specifierOffsets) =
      prepareFrom formatTime item.2.epochTimeSeconds (formatInt item.2.epochTimeSeconds) 0
        (DateFormatter.mk item.1).specifiers := by
  have hunexpired (hitem : item ∈ cachedTime.formatted.filter fun item ↦ item.2.epochTimeSeconds =
    s) :
      item.2.epochTimeSeconds = s ∧ (item.2.str, item.2.specifierOffsets) =
        prepareFrom formatTime item.2.epochTimeSeconds (formatInt item.2.epochTimeSeconds) 0
          (DateFormatter.mk item.1).specifiers :=
    ⟨of_decide_eq_true (List.mem_filter.1 hitem).2, h.prepared item (List.mem_filter.1 hitem).1⟩
  rw [refresh] at hitem
  dsimp only at hitem
  split_ifs at hitem with hany
  · exact hunexpired hitem
  · rcases List.mem_append.1 hitem with hitem | hitem
    · exact hunexpired hitem
    · rw [List.mem_singleton.1 hitem]
      exact ⟨rfl, rfl⟩

/-- And the format is there. -/
theorem CachedTime.exists_mem_refresh (formatTime : Text → ℤ → Text) (cachedTime : CachedTime)
    (formatter : DateFormatter) (s : ℤ) :
    ∃ item ∈ (cachedTime.refresh formatTime formatter s).formatted, item.1 =
      formatter.rawFormatString := by
  rw [refresh]
  dsimp only
  split_ifs with hany
  · obtain ⟨item, hitem, hkey⟩ := List.any_eq_true.1 hany
    exact ⟨item, hitem, of_decide_eq_true hkey⟩
  · exact ⟨_, List.mem_append_right _ List.mem_cons_self, rfl⟩

/-- After the refresh the cache is in order, and it has an entry of the format at the second asked
for. -/
theorem CachedTime.refresh_spec (h : cachedTime.Valid formatTime) (formatter : DateFormatter)
    (s : ℤ) :
    (cachedTime.refresh formatTime formatter s).Valid formatTime ∧
      ∃ formatted, (cachedTime.refresh formatTime formatter s).find formatter.rawFormatString =
        some formatted ∧ formatted.epochTimeSeconds = s := by
  refine ⟨⟨fun item hitem ↦ (mem_refresh h hitem).2, fun item hitem ↦ ?_⟩, ?_⟩
  · rw [(mem_refresh h hitem).1]
    rfl
  · obtain ⟨item, hitem, hkey⟩ := exists_mem_refresh formatTime cachedTime formatter s
    have hsome : ((cachedTime.refresh formatTime formatter s).formatted.find? fun item ↦
        item.1 = formatter.rawFormatString).isSome :=
      List.find?_isSome.2 ⟨item, hitem, decide_eq_true hkey⟩
    obtain ⟨found, hfound⟩ := Option.isSome_iff_exists.1 hsome
    refine ⟨found.2, ?_, (mem_refresh h (List.mem_of_find?_eq_some hfound)).1⟩
    rw [find, hfound]
    rfl

/-- After the first half of a call. -/
theorem DateFormatter.cache_spec (h : cachedTime.Valid formatTime) (formatter : DateFormatter)
    (s : ℤ) :
    (formatter.cache formatTime cachedTime s).Valid formatTime ∧
      ∃ formatted, (formatter.cache formatTime cachedTime s).find formatter.rawFormatString =
        some formatted ∧ formatted.epochTimeSeconds = s := by
  rw [cache]
  rcases hfind : cachedTime.find formatter.rawFormatString with _ | item
  · exact CachedTime.refresh_spec h formatter s
  · dsimp only
    split_ifs with hsecond
    · exact CachedTime.refresh_spec h formatter s
    · exact ⟨h, item, hfind, not_not.1 hsecond⟩

/-- No call spoils the cache, whatever its format and its time. -/
theorem valid_cacheAfter (calls : List (DateFormatter × ℤ)) :
    (cacheAfter formatTime calls).Valid formatTime := by
  induction calls using List.reverseRecOn with
  | nil => exact ⟨fun _ h ↦ absurd h List.not_mem_nil, fun _ h ↦ absurd h List.not_mem_nil⟩
  | append_singleton calls call ih =>
    rw [cacheAfter, List.foldl_append]
    exact (DateFormatter.cache_spec ih call.1 _).1

/-- One call, if the cache is as calls leave it: the digits are copied over what is formatted at
this second. -/
theorem fromTime_of_valid (h : cachedTime.Valid formatTime) (formatter : DateFormatter) (time : ℕ) :
    (formatter.fromTime formatTime cachedTime time).1 =
      let prepared := prepareFrom formatTime (time / 1000000000 : ℕ) (decimal (time / 1000000000)) 0
        formatter.specifiers
      replaceSubseconds (paddedNanoseconds time) (decimal (time / 1000000000)).length
        formatter.specifiers
        prepared.2 prepared.1 := by
  obtain ⟨hvalid, formatted, hfind, hsecond⟩ :=
    DateFormatter.cache_spec h formatter (time / 1000000000 : ℕ)
  have hmem := CachedTime.mem_of_find hfind
  have hprepared := hvalid.prepared _ hmem
  have hlength := hvalid.secondsLength_eq _ hmem
  dsimp only at hprepared hlength
  rw [hsecond, formatInt_natCast] at hprepared hlength
  have htime : (time : ℤ).tdiv 1000000000 = (time / 1000000000 : ℕ) :=
    (Int.ofNat_tdiv time 1000000000).symm
  rw [DateFormatter.fromTime]
  dsimp only
  rw [htime, hfind, Option.bind_some, hlength, ← hprepared]

/-- The segments and the `%s` of a format. -/
def rawLength (specifiers : List Specifier) : ℕ :=
  (specifiers.map fun specifier ↦ specifier.segment.length + if specifier.second then 2 else 0).sum

/-- A specifier adds its segment, and two characters if it is `%s`. -/
theorem rawLength_cons (specifier : Specifier) (specifiers : List Specifier) :
    rawLength (specifier :: specifiers) =
      specifier.segment.length + (if specifier.second then 2 else 0) + rawLength specifiers :=
        List.sum_cons

/-- The segments are parts of the format. -/
theorem rawLength_parseFrom (step : ℕ) (format : Text) :
    rawLength (parseFrom step format) ≤ format.length := by
  induction format using regexSearch_induction generalizing step with
  | none format h =>
    rw [parseFrom_of_eq_none h]
    split_ifs
    · exact Nat.zero_le _
    · exact le_rfl
  | some format matched h ih =>
    have hlength := length_of_regexSearch h
    have hrest := ih ((Specifier.ofMatch step matched).position +
      (Specifier.ofMatch step matched).width)
    have hmatch : (Specifier.ofMatch step matched).segment.length +
        (if (Specifier.ofMatch step matched).second then 2 else 0) ≤ matched.before.length + 2 := by
      by_cases hsecond : matched.secondSpecifier.isEmpty
      · rw [Specifier.ofMatch, if_pos hsecond]
        exact Nat.le_add_right _ 2
      · rw [Specifier.ofMatch, if_neg hsecond]
        exact le_rfl
    rw [parseFrom_of_eq_some h, rawLength_cons]
    omega

/-- An offset is between the lengths of the format and of the result up to there. -/
theorem exactOffsets_bounds {seconds previous offset : ℤ} {secondsStr : Text}
    {specifiers : List Specifier}
    (digits : Text) (h : offset ∈ exactOffsets formatTime seconds secondsStr previous specifiers) :
    previous - rawLength specifiers ≤ offset ∧
      offset ≤ previous + (specifiers.flatMap fun specifier ↦
        formatTime specifier.segment seconds ++ specifier.final secondsStr digits).length := by
  induction specifiers generalizing previous with
  | nil => exact absurd h List.not_mem_nil
  | cons specifier specifiers ih =>
    have hfinal : (if specifier.second then (secondsStr.length : ℤ) else 0) ≤
        (specifier.final secondsStr digits).length := by
      rw [Specifier.final]
      split_ifs
      · exact le_rfl
      · exact Int.natCast_nonneg _
    rw [rawLength_cons, List.flatMap_cons, List.length_append, List.length_append]
    rw [exactOffsets, List.mem_cons] at h
    have hgrowth : specifier.growth formatTime seconds secondsStr =
      (formatTime specifier.segment seconds).length +
        (if specifier.second then (secondsStr.length : ℤ) - 2 else 0) - specifier.segment.length :=
        rfl
    push_cast
    rcases h with rfl | h
    · split_ifs at hfinal hgrowth ⊢ <;> omega
    · have hrest := ih h
      split_ifs at hfinal hgrowth ⊢ <;> omega

/-- Two gigabytes are enough for the format and the result. -/
theorem offsetsFit_of_length_lt {format : Text} (hformat : format.length < 2 ^ 31)
    (hresult : (formatDirectly formatTime format time).length < 2 ^ 31) :
    OffsetsFit formatTime format time := by
  rintro ⟨specifier, offset⟩ hitem -
  have hbounds := exactOffsets_bounds (nanosecondFraction time) (List.of_mem_zip hitem).2
  show -2 ^ 31 ≤ offset ∧ offset < 2 ^ 31
  have hraw : rawLength (DateFormatter.mk format).specifiers ≤ format.length :=
    rawLength_parseFrom 0 format
  have hdirectly : ((DateFormatter.mk format).specifiers.flatMap fun specifier ↦
      formatTime specifier.segment (time / 1000000000 : ℕ) ++
        specifier.final (decimal (time / 1000000000)) (nanosecondFraction time)) =
      formatDirectly formatTime format time := flatMap_parseFrom 0 format time
  rw [hdirectly] at hbounds
  omega

/-- **A call gives what formatting the segments gives**, after any calls on any formatters, if the
offsets of the subseconds are numbers of `int32_t`. -/
theorem fromTime_eq (formatTime : Text → ℤ → Text) (calls : List (DateFormatter × ℤ))
    (format : Text)
    (time : ℕ) (hfit : OffsetsFit formatTime format time) :
    ((DateFormatter.mk format).fromTime formatTime (cacheAfter formatTime calls) time).1 =
      some (formatDirectly formatTime format time) := by
  rw [fromTime_of_valid (valid_cacheAfter calls)]
  dsimp only
  have hoffsets : (prepareFrom formatTime (time / 1000000000 : ℕ) (decimal (time / 1000000000)) 0
      (DateFormatter.mk format).specifiers).2 = _ := prepareFrom_snd 0 _
  rw [hoffsets, prepareFrom_fst, paddedNanoseconds_eq, ← flatMap_parseFrom 0]
  exact replaceSubseconds_spec (positioned_parseFrom 0 format) (length_lowDigits 10 9 time)
    List.drop_left (by rw [List.length_append]; omega) [] rfl hfit

/-- The history has the format at another second, another format at this one, and a time before the
epoch. -/
theorem fromTime_fifthSecond :
    ∃ formatTime : Text → ℤ → Text,
      ((DateFormatter.mk "%H:%M:%S.%3fZ %s".toList).fromTime formatTime
        (cacheAfter formatTime [(⟨"%H:%M:%S.%3fZ %s".toList⟩, 12000000000),
          (⟨"%f".toList⟩, 5000000001),
          (⟨"%f".toList⟩, -700000000)]) (5070000000 : ℕ)).1 = some "00:00:05.070Z 5".toList := by
  refine ⟨fun segment time ↦ if segment = "%H:%M:%S.".toList then
    "00:00:".toList ++ [Nat.digitChar (time.toNat / 10 % 10), Nat.digitChar (time.toNat % 10), '.']
      else segment, ?_⟩
  exact (fromTime_eq _ _ _ _ (offsetsFit_of_length_lt (by decide +kernel)
    (by decide +kernel))).trans
    (by decide +kernel)

/-! ### Where an offset wraps around

A format of `n` two-character specifiers that are formatted to four characters each puts the digits
`2 * n` places behind their position in the format. From `2 ^ 31` places on, the offset is not a
number of `int32_t`.
-/

/-- `%Y`, over and over. -/
def years : ℕ → Text
  | 0 => []
  | n + 1 => '%' :: 'Y' :: years n

/-- In 1970, `%Y` is formatted as the year, and other characters are as they are. -/
def formatYears : Text → Text
  | '%' :: 'Y' :: s => "1970".toList ++ formatYears s
  | c :: s => c :: formatYears s
  | [] => []

/-- Each specifier has two characters. -/
theorem length_years (n : ℕ) : (years n).length = 2 * n := by
  induction n with
  | zero => rfl
  | succ n ih =>
    rw [years, List.length_cons, List.length_cons, ih]
    rfl

/-- Each specifier becomes four characters. -/
theorem length_formatYears (n : ℕ) : (formatYears (years n)).length = 4 * n := by
  induction n with
  | zero => rfl
  | succ n ih =>
    rw [years, formatYears, List.length_append, ih]
    exact (Nat.add_comm _ _).trans (Nat.mul_succ 4 n).symm

/-- None of the specifiers of the years is a subsecond specifier, so the first match is at their
end. -/
theorem regexSearch_years (n : ℕ) :
    regexSearch (years n ++ ['%', 'f']) = some ⟨years n, [], [], []⟩ := by
  induction n with
  | zero => rfl
  | succ n ih =>
    have hrest : ∃ s, years n ++ ['%', 'f'] = '%' :: s := by
      match n with
      | 0 => exact ⟨_, rfl⟩
      | _ + 1 => exact ⟨_, rfl⟩
    obtain ⟨s, hs⟩ := hrest
    show regexSearch ('%' :: 'Y' :: (years n ++ ['%', 'f'])) = _
    have hskip : regexSearch ('%' :: 'Y' :: '%' :: s) =
        (regexSearch ('%' :: s)).map fun m ↦ { m with before := '%' :: 'Y' :: m.before } := by
      rw [regexSearch, regexSearch]
      show ((regexSearch ('%' :: s)).map _).map _ = _
      rw [Option.map_map]
      rfl
    rw [hs, hskip, ← hs, ih]
    rfl

/-- The specifier is behind all the years. -/
theorem specifiers_years (n : ℕ) :
    (DateFormatter.mk (years n ++ ['%', 'f'])).specifiers = [⟨2 * n, 9, years n, false⟩] := by
  rw [DateFormatter.specifiers, parseFrom_of_eq_some (regexSearch_years n),
    parseFrom_of_eq_none rfl]
  show [({ position := 0 + (years n).length, width := 9, segment := years n, second := false } :
    Specifier)] = _
  rw [length_years, Nat.zero_add]

/-- The digits are written over the first years, because the offset has become negative. -/
theorem fromTime_years {n : ℕ} (hn : 2 * (n : ℤ) = 2 ^ 31) :
    ((DateFormatter.mk (years n ++ ['%', 'f'])).fromTime (fun segment _ ↦ formatYears segment)
        (cacheAfter (fun segment _ ↦ formatYears segment) []) (123456789 : ℕ)).1 =
      some ("123456789".toList ++ (formatYears (years n) ++ List.replicate 9 '?').drop 9) := by
  rw [fromTime_of_valid (valid_cacheAfter []), specifiers_years]
  have hgrowth : (⟨2 * n, 9, years n, false⟩ : Specifier).growth
    (fun segment _ ↦ formatYears segment) 0
      (decimal 0) = 2 ^ 31 := by
    show ((formatYears (years n)).length : ℤ) + 0 - (years n).length = _
    rw [length_formatYears, length_years]
    push_cast
    omega
  have hwrapped : toInt32 (0 + toInt32 (2 ^ 31)) = -2 ^ 31 := by decide
  have hstart : ((2 * n : ℕ) : ℤ) + -2 ^ 31 = 0 := by
    push_cast
    omega
  have hreplace : ∀ s str : Text, replace s 0 9 str = some (str ++ s.drop 9) := fun s str ↦
    if_pos ⟨le_rfl, Int.natCast_nonneg _⟩
  show ((substr (paddedNanoseconds (123456789 : ℕ)) 1 9).bind fun digits ↦
    (replace _ (((2 * n : ℕ) : ℤ) + toInt32 (0 + toInt32 (Specifier.growth _ 0 (decimal 0) _))) 9
      digits).bind
      _) = _
  have hdigits : substr (paddedNanoseconds (123456789 : ℕ)) 1 9 =
      some "123456789".toList := by decide +kernel
  rw [hgrowth, hwrapped, hstart, hdigits, Option.bind_some, hreplace]
  show some (_ ++ ((formatYears (years n) ++ List.replicate 9 '?') ++ []).drop 9) = _
  rw [List.append_nil]

/-- Directly formatted, the digits are behind the years. -/
theorem formatDirectly_years (n : ℕ) :
    formatDirectly (fun segment _ ↦ formatYears segment) (years n ++ ['%', 'f']) 123456789 =
      formatYears (years n) ++ "123456789".toList := by
  rw [formatDirectly, segments_of_eq_some (regexSearch_years n), segments_of_eq_none rfl]
  show (formatYears (years n) ++ (nanosecondFraction 123456789).take 9) ++ [] = _
  have hdigits : (nanosecondFraction 123456789).take 9 = "123456789".toList := by decide +kernel
  rw [List.append_nil, hdigits]

/-- A question mark is left in the end. -/
theorem fromTime_years_ne {n : ℕ} (hn : 2 * (n : ℤ) = 2 ^ 31) :
    ((DateFormatter.mk (years n ++ ['%', 'f'])).fromTime (fun segment _ ↦ formatYears segment)
        (cacheAfter (fun segment _ ↦ formatYears segment) []) (123456789 : ℕ)).1 ≠
      some (formatDirectly (fun segment _ ↦ formatYears segment) (years n ++ ['%', 'f'])
        123456789) := by
  rw [fromTime_years hn, formatDirectly_years]
  intro heq
  have hlength : 9 ≤ (formatYears (years n)).length := by
    rw [length_formatYears]
    omega
  have hlast := congrArg List.getLast? (Option.some.inj heq)
  rw [List.drop_append_of_le_length hlength, List.getLast?_append, List.getLast?_append,
    List.getLast?_append] at hlast
  have hdifferent : some '?' ≠ some '9' := by decide
  exact hdifferent hlast

/-- A format of two gigabytes, and two characters. -/
theorem fromTime_years_two_pow_ne :
    ∃ formatTime : Text → ℤ → Text,
      ((DateFormatter.mk (years (2 ^ 30) ++ ['%', 'f'])).fromTime formatTime
        (cacheAfter formatTime []) (123456789 : ℕ)).1 ≠
        some (formatDirectly formatTime (years (2 ^ 30) ++ ['%', 'f']) 123456789) :=
  ⟨_, fromTime_years_ne (by decide)⟩

end TcpServer.Common
