import TcpServer.Common.RemoveCharacters
import TcpServer.Network.Address

/-!
# Formatted dates

`DateFormatter` cuts its format at the specifiers that `absl::FormatTime` is not to see: `%f` and
`%1f` to `%9f` for the subseconds and `%s` for the seconds since the epoch. It formats the segments
once in a second, with question marks for the subseconds, and in every call of that second copies
the digits over them. Where they are to go is known from the positions in the format, which are
corrected by how much longer the text before them has become.

Formatting is a parameter, from a format and a whole second; times are nanoseconds since the epoch
and may be before it. Sizes are natural numbers, and the offsets are of `int32_t` and wrap around
(`toInt32`).

The module has the pattern and its search, the list of specifiers that the constructor makes of a
format (`parseFrom`), and the two loops of a call: the one that formats the segments and computes
the offsets (`prepareFrom`), once in a second, and the one that copies the digits
(`replaceSubseconds`).

The second loop is right only where the first one has computed the places exactly, so `Positioned`
says what the list of specifiers has to do with the format, `exactOffsets` are the offsets without
the wrapping, and `replaceSubseconds_spec` says that with them the question marks are replaced one
after the other and nothing else is touched.
-/

namespace TcpServer.Common

open Network

/-! ### The pattern -/

/-- A match of `(%([1-9])?f)|(%s)`: what is before it, the second and the third group, and the
suffix. -/
structure Smatch where
  /-- The text in front of the match. -/
  before : Text
  /-- The digit of `%1f` to `%9f`, empty for `%f`. -/
  widthSpecifier : Text
  /-- The match of the group `(%s)`, empty unless that is what was found. -/
  secondSpecifier : Text
  /-- The text behind the match. -/
  suffix : Text
deriving DecidableEq

/-- The digit of `%1f` to `%9f`, and all digits for `%f`. -/
def Smatch.width (matched : Smatch) : ℕ :=
  match matched.widthSpecifier with
  | [] => 9
  | d :: _ => d.toNat - 48

/-- The match at the beginning of a text. -/
def matchPattern : Text → Option Smatch
  | '%' :: 'f' :: suffix => some ⟨[], [], [], suffix⟩
  | '%' :: 's' :: suffix => some ⟨[], [], ['%', 's'], suffix⟩
  | '%' :: d :: 'f' :: suffix => if '1' ≤ d ∧ d ≤ '9' then some ⟨[], [d], [], suffix⟩ else none
  | _ => none

/-- `std::regex_search`: the first match. -/
def regexSearch : Text → Option Smatch
  | [] => none
  | c :: s =>
    match matchPattern (c :: s) with
    | some m => some m
    | none => (regexSearch s).map fun m ↦ { m with before := c :: m.before }

/-- A match has at least two characters, and there is nothing before it. -/
theorem length_of_matchPattern {s : Text} {m : Smatch} (h : matchPattern s = some m) :
    m.before = [] ∧ 2 + m.suffix.length ≤ s.length := by
  unfold matchPattern at h
  split at h
  · rw [← Option.some.inj h, List.length_cons, List.length_cons]
    exact ⟨rfl, (Nat.add_comm _ _).le⟩
  · rw [← Option.some.inj h, List.length_cons, List.length_cons]
    exact ⟨rfl, (Nat.add_comm _ _).le⟩
  · split_ifs at h
    rw [← Option.some.inj h, List.length_cons, List.length_cons, List.length_cons]
    exact ⟨rfl, (Nat.add_comm _ _).le.trans (Nat.le_succ _)⟩
  · exact absurd h.symm (Option.some_ne_none m)

/-- The search is a match behind some of the text. -/
theorem exists_matchPattern {s : Text} {m : Smatch} (h : regexSearch s = some m) :
    ∃ skipped t m₀, s = skipped ++ t ∧ matchPattern t = some m₀ ∧
      m = { m₀ with before := skipped ++ m₀.before } := by
  induction s generalizing m with
  | nil => exact absurd h.symm (Option.some_ne_none m)
  | cons c s ih =>
    rw [regexSearch] at h
    rcases hm : matchPattern (c :: s) with _ | m'
    · rw [hm] at h
      obtain ⟨m₁, h₁, rfl⟩ := Option.map_eq_some_iff.1 h
      obtain ⟨skipped, t, m₀, rfl, ht, rfl⟩ := ih h₁
      exact ⟨c :: skipped, t, m₀, rfl, ht, rfl⟩
    · rw [hm] at h
      exact ⟨[], c :: s, m', rfl, hm, (Option.some.inj h).symm⟩

/-- A match has at least two characters, and what is before and behind it is in the text. -/
theorem length_of_regexSearch {s : Text} {m : Smatch} (h : regexSearch s = some m) :
    m.before.length + 2 + m.suffix.length ≤ s.length := by
  obtain ⟨skipped, t, m₀, rfl, ht, rfl⟩ := exists_matchPattern h
  obtain ⟨hbefore, hle⟩ := length_of_matchPattern ht
  rw [hbefore, List.append_nil, List.length_append]
  show skipped.length + 2 + m₀.suffix.length ≤ skipped.length + t.length
  omega

/-- The search goes on in a shorter text. -/
theorem length_suffix_lt {s : Text} {m : Smatch} (h : regexSearch s = some m) :
    m.suffix.length < s.length := by
  have hle := length_of_regexSearch h
  omega

/-- Induction over what is behind the matches. -/
theorem regexSearch_induction {P : Text → Prop} (none : ∀ s, regexSearch s = none → P s)
    (some : ∀ s m, regexSearch s = some m → P m.suffix → P s) (s : Text) : P s := by
  induction hn : s.length using Nat.strongRecOn generalizing s with
  | ind n ih =>
    rcases h : regexSearch s with _ | m
    · exact none s h
    · exact some s m h (ih _ (hn ▸ length_suffix_lt h) m.suffix rfl)

/-! ### Specifiers

The constructor makes one specifier for each match. The last one is for the text behind all of them
and has width 0, which no match has.
-/

/-- A part of the format that ends with one subsecond specifier, or with none. -/
structure Specifier where
  /-- Where the specifier is in the format. -/
  position : ℕ
  /-- How many characters it is replaced by: digits for `%f`, and for `%s` the two that it has
  itself. -/
  width : ℕ
  /-- The text in front of it, which goes to `absl::FormatTime`. -/
  segment : Text
  /-- Whether it is `%s`, the seconds since the epoch. -/
  second : Bool
deriving DecidableEq

/-- The specifier that `parse` makes of a match. -/
def Specifier.ofMatch (step : ℕ) (matched : Smatch) : Specifier :=
  if matched.secondSpecifier.isEmpty then
    { position := step + matched.before.length, width := matched.width, segment := matched.before,
      second := false }
  else { position := step + matched.before.length, width := 2, segment := matched.before,
         second := true }

/-- The loop of `DateFormatter::parse`, and the segment behind the last specifier. -/
def parseFrom (step : ℕ) (suffix : Text) : List Specifier :=
  match _h : regexSearch suffix with
  | none =>
    if suffix.isEmpty then [] else [{ position := step, width := 0, segment := suffix,
                                      second := false }]
  | some matched =>
    let specifier := Specifier.ofMatch step matched
    specifier :: parseFrom (specifier.position + specifier.width) matched.suffix
termination_by suffix.length
decreasing_by exact length_suffix_lt _h

/-- A formatter is its format: the specifiers are computed from it. -/
structure DateFormatter where
  /-- The format as the caller has given it. -/
  rawFormatString : Text

/-- `specifiers_`, which the constructor parses. -/
def DateFormatter.specifiers (formatter : DateFormatter) : List Specifier :=
  parseFrom 0 formatter.rawFormatString

/-! ### Formatting -/

/-- Conversion to `int32_t`. -/
def toInt32 (n : ℤ) : ℤ := n.bmod (2 ^ 32)

/-- What stands for a specifier until the subseconds are known. -/
def Specifier.placeholder (secondsStr : Text) (specifier : Specifier) : Text :=
  if specifier.second then secondsStr else List.replicate specifier.width '?'

/-- By how much a formatted segment, with its specifier, is longer than in the format. -/
def Specifier.growth (formatTime : Text → ℤ → Text) (time : ℤ) (secondsStr : Text)
    (specifier : Specifier) :
    ℤ :=
  (formatTime specifier.segment time).length +
    (if specifier.second then (secondsStr.length : ℤ) - 2 else 0) -
    specifier.segment.length

/-- `DateFormatter::fromTimeAndPrepareSpecifierOffsets`, from the offset of the specifier before.
The sum of two offsets is one of two `int32_t`: where it leaves their range it wraps around here,
and is undefined in the source. -/
def prepareFrom (formatTime : Text → ℤ → Text) (time : ℤ) (secondsStr : Text) :
    ℤ → List Specifier → Text × List ℤ
  | _, [] => ([], [])
  | previous, specifier :: specifiers =>
    let currentFormat := formatTime specifier.segment time
    let offset := toInt32 (specifier.growth formatTime time secondsStr)
    let rest := prepareFrom formatTime time secondsStr (toInt32 (previous + offset)) specifiers
    (currentFormat ++ specifier.placeholder secondsStr ++ rest.1, toInt32 (previous + offset) ::
      rest.2)

/-- `string::replace`, which throws if `pos` is behind the end. A negative position has wrapped
around and is behind every end. -/
def replace (s : Text) (pos : ℤ) (len : ℕ) (str : Text) : Option Text :=
  if 0 ≤ pos ∧ pos ≤ s.length then some (s.take pos.toNat ++ str ++ s.drop (pos.toNat + len))
    else none

/-- The loop over the specifiers: `nanoseconds` are copied to where their widths are not zero. -/
def replaceSubseconds (nanoseconds : Text) (secondsLength : ℕ) :
    List Specifier → List ℤ → Text → Option Text
  | [], _, formattedStr => some formattedStr
  | specifier :: specifiers, offsets, formattedStr =>
    if 0 < specifier.width ∧ specifier.second = false then do
      let offset ← offsets.head?
      let digits ← substr nanoseconds secondsLength specifier.width
      let formattedStr ← replace formattedStr (specifier.position + offset) specifier.width digits
      replaceSubseconds nanoseconds secondsLength specifiers offsets.tail formattedStr
    else replaceSubseconds nanoseconds secondsLength specifiers offsets.tail formattedStr

/-- `fmt::format_int`. -/
def formatInt (n : ℤ) : Text := if n < 0 then '-' :: decimal n.natAbs else decimal n.natAbs

/-- The nanoseconds since the epoch, in at least ten characters. -/
def paddedNanoseconds (epochTimeNs : ℤ) : Text :=
  let nanoseconds := formatInt epochTimeNs
  if nanoseconds.length < 10 then List.replicate (10 - nanoseconds.length) '0' ++ nanoseconds
  else nanoseconds

/-- A number that is not negative has no sign. -/
@[simp] theorem formatInt_natCast (n : ℕ) : formatInt n = decimal n :=
  if_neg (Int.not_lt.2 (Int.natCast_nonneg n))

/-! ### What the loops do -/

variable {formatTime : Text → ℤ → Text} {secondsLength step : ℕ} {previous time : ℤ}
  {secondsStr nanoseconds digits : Text} {specifiers : List Specifier}

/-- Where `parse` puts the specifiers: behind their segments, and those behind what stands for the
ones before. Only the last may be of no width, and stand before its segment. -/
inductive Positioned : ℕ → List Specifier → Prop
  | nil (step : ℕ) : Positioned step []
  | last (step : ℕ) (segment : Text) :
    Positioned step [{ position := step, width := 0, segment, second := false }]
  | cons {step : ℕ} {specifier : Specifier} {specifiers : List Specifier}
    (position_eq : specifier.position = step + specifier.segment.length)
    (width_eq : specifier.second = true → specifier.width = 2) (width_le : specifier.width ≤ 9)
    (h : Positioned (specifier.position + specifier.width) specifiers) :
    Positioned step (specifier :: specifiers)

/-- The digit of a width is one. -/
theorem width_le_of_matchPattern {s : Text} {m : Smatch} (h : matchPattern s = some m) :
    m.width ≤ 9 := by
  unfold matchPattern at h
  split at h
  · exact Option.some.inj h ▸ le_rfl
  · exact Option.some.inj h ▸ le_rfl
  · split_ifs at h with hd
    rw [← Option.some.inj h]
    have : _ ≤ '9'.toNat := UInt32.le_iff_toNat_le.1 (Char.le_def.1 hd.2)
    exact Nat.sub_le_of_le_add this
  · exact absurd h.symm (Option.some_ne_none m)

/-- No specifier stands for more than nine digits, which is how many there are. -/
theorem width_le {s : Text} {m : Smatch} (h : regexSearch s = some m) : m.width ≤ 9 := by
  obtain ⟨skipped, t, m₀, -, ht, rfl⟩ := exists_matchPattern h
  have hwidth : m₀.width ≤ 9 := width_le_of_matchPattern ht
  exact hwidth

/-- Behind the last match there is one more specifier, unless nothing is left. -/
theorem parseFrom_of_eq_none {suffix : Text} (h : regexSearch suffix = none) :
    parseFrom step suffix = if suffix.isEmpty then []
      else [{ position := step, width := 0, segment := suffix, second := false }] := by
  rw [parseFrom]
  split
  · rfl
  · rename_i matched hsome
    exact absurd (h.symm.trans hsome) (Option.some_ne_none matched).symm

/-- A match makes a specifier, and the parsing goes on behind it. -/
theorem parseFrom_of_eq_some {suffix : Text} {matched : Smatch}
    (h : regexSearch suffix = some matched) :
    parseFrom step suffix = Specifier.ofMatch step matched ::
      parseFrom ((Specifier.ofMatch step matched).position + (Specifier.ofMatch step matched).width)
        matched.suffix := by
  rw [parseFrom]
  split
  · rename_i hnone
    exact absurd (h.symm.trans hnone) (Option.some_ne_none matched)
  · rename_i matched' hsome
    obtain rfl : matched = matched' := Option.some.inj (h.symm.trans hsome)
    rfl

/-- What the constructor makes of a format is in order. -/
theorem positioned_parseFrom (step : ℕ) (suffix : Text) :
    Positioned step (parseFrom step suffix) := by
  induction suffix using regexSearch_induction generalizing step with
  | none suffix h =>
    rw [parseFrom_of_eq_none h]
    split_ifs
    · exact .nil step
    · exact .last step suffix
  | some suffix matched h ih =>
    rw [parseFrom_of_eq_some h]
    by_cases hsecond : matched.secondSpecifier.isEmpty
    · rw [Specifier.ofMatch, if_pos hsecond]
      exact .cons rfl (fun h ↦ absurd h Bool.false_ne_true) (width_le h) (ih _)
    · rw [Specifier.ofMatch, if_neg hsecond]
      have htwo : 2 ≤ 9 := by decide
      exact .cons rfl (fun _ ↦ rfl) htwo (ih _)

/-- The offsets, if no `int32_t` wraps around. -/
def exactOffsets (formatTime : Text → ℤ → Text) (time : ℤ) (secondsStr : Text) :
    ℤ → List Specifier → List ℤ
  | _, [] => []
  | previous, specifier :: specifiers =>
    let offset := previous + specifier.growth formatTime time secondsStr
    offset :: exactOffsets formatTime time secondsStr offset specifiers

/-- A number that fits into an `int32_t` is kept. -/
theorem toInt32_of_fits {n : ℤ} (h : -2 ^ 31 ≤ n ∧ n < 2 ^ 31) : toInt32 n = n :=
  Int.bmod_eq_of_le (by omega) (by omega)

/-- The offsets are the exact ones, each of them wrapped. The sums wrap on the way, and it makes no
difference where. -/
theorem prepareFrom_snd (previous : ℤ) (specifiers : List Specifier) :
    (prepareFrom formatTime time secondsStr (toInt32 previous) specifiers).2 =
      (exactOffsets formatTime time secondsStr previous specifiers).map toInt32 := by
  induction specifiers generalizing previous with
  | nil => rfl
  | cons specifier specifiers ih =>
    have hoffset : toInt32 (toInt32 previous +
      toInt32 (specifier.growth formatTime time secondsStr)) =
        toInt32 (previous + specifier.growth formatTime time secondsStr) := by
      rw [toInt32, toInt32, toInt32, toInt32, Int.add_bmod_bmod, Int.bmod_add_bmod]
    show toInt32 _ :: (prepareFrom formatTime time secondsStr (toInt32 _) specifiers).2 =
      toInt32 _ :: _
    rw [hoffset, ih]

/-- The text is made of the segments, each followed by its question marks or by the seconds. -/
theorem prepareFrom_fst (previous : ℤ) (specifiers : List Specifier) :
    (prepareFrom formatTime time secondsStr previous specifiers).1 =
      specifiers.flatMap fun specifier ↦
        formatTime specifier.segment time ++ specifier.placeholder secondsStr := by
  induction specifiers generalizing previous with
  | nil => rfl
  | cons specifier specifiers ih =>
    rw [List.flatMap_cons, ← ih]
    rfl

/-- What is to stand for a specifier in the end. -/
def Specifier.final (secondsStr digits : Text) (specifier : Specifier) : Text :=
  if specifier.second then secondsStr else digits.take specifier.width

/-- What a specifier is replaced by has the length that the next places are corrected by. -/
theorem Specifier.length_final {specifier : Specifier} (hdigits : digits.length = 9)
    (hwidth : specifier.second = true → specifier.width = 2) (hle : specifier.width ≤ 9) :
    ((specifier.final secondsStr digits).length : ℤ) =
      specifier.width + if specifier.second then (secondsStr.length : ℤ) - 2 else 0 := by
  rw [Specifier.final]
  split_ifs with hsecond
  · rw [hwidth hsecond]
    omega
  · rw [List.length_take, hdigits]
    omega

/-- Where no digits are copied, there is already what is to stand there. -/
theorem Specifier.placeholder_eq_final {specifier : Specifier}
    (h : ¬(0 < specifier.width ∧ specifier.second = false)) :
    specifier.placeholder secondsStr = specifier.final secondsStr digits := by
  rw [Specifier.placeholder, Specifier.final]
  split_ifs with hsecond
  · rfl
  · have hzero : specifier.width = 0 :=
      Nat.eq_zero_of_not_pos fun hpos ↦ h ⟨hpos, Bool.eq_false_iff.2 hsecond⟩
    rw [hzero]
    rfl

/-- Where the position is that of a part of the text, that part is replaced. -/
theorem replace_append (before middle rest str : Text) (pos : ℤ) (hpos : pos = before.length) :
    replace (before ++ (middle ++ rest)) pos middle.length str =
      some (before ++ (str ++ rest)) := by
  have hle : 0 ≤ pos ∧ pos ≤ (before ++ (middle ++ rest)).length := by
    rw [List.length_append]
    omega
  have hnat : pos.toNat = before.length := by omega
  rw [replace, if_pos hle, hnat, List.take_left, List.append_assoc, ← List.drop_drop,
    List.drop_left, List.drop_left]

/-- The digits are copied over the question marks. -/
theorem Specifier.replace_placeholder {specifier : Specifier} (hsecond : specifier.second = false)
    (before rest : Text) (pos : ℤ) (hpos : pos = before.length) :
    replace (before ++ (specifier.placeholder secondsStr ++ rest)) pos specifier.width
        (digits.take specifier.width) =
      some (before ++ (specifier.final secondsStr digits ++ rest)) := by
  have hplaceholder : (specifier.placeholder secondsStr).length = specifier.width := by
    rw [placeholder, if_neg (Bool.eq_false_iff.1 hsecond), List.length_replicate]
  have hfinal : specifier.final secondsStr digits = digits.take specifier.width :=
    if_neg (Bool.eq_false_iff.1 hsecond)
  have hreplace := replace_append before (specifier.placeholder secondsStr) rest
    (specifier.final secondsStr digits) pos hpos
  rw [hplaceholder] at hreplace
  rwa [← hfinal]

/-- **The digits get to the right places**, if the offsets by which they are copied are numbers of
`int32_t`. What is before the first specifier is finished; it is as much longer than in the format
as the offset before says. -/
theorem replaceSubseconds_spec (h : Positioned step specifiers) (hdigits : digits.length = 9)
    (hnanoseconds : nanoseconds.drop secondsLength = digits)
    (hlength : secondsLength ≤ nanoseconds.length)
    (done : Text) (hdone : (done.length : ℤ) = step + previous)
    (hfit : ∀ item ∈ specifiers.zip (exactOffsets formatTime time secondsStr previous specifiers),
      0 < item.1.width ∧ item.1.second = false → -2 ^ 31 ≤ item.2 ∧ item.2 < 2 ^ 31) :
    replaceSubseconds nanoseconds secondsLength specifiers
        ((exactOffsets formatTime time secondsStr previous specifiers).map toInt32)
        (done ++ specifiers.flatMap fun specifier ↦
          formatTime specifier.segment time ++ specifier.placeholder secondsStr) =
      some (done ++ specifiers.flatMap fun specifier ↦
        formatTime specifier.segment time ++ specifier.final secondsStr digits) := by
  induction h generalizing previous done with
  | nil => rfl
  | last step segment => rfl
  | @cons step specifier specifiers hposition hwidth hle h ih =>
    rw [exactOffsets, List.zip_cons_cons, List.forall_mem_cons] at hfit
    rw [replaceSubseconds, exactOffsets, List.map_cons, List.flatMap_cons, List.flatMap_cons,
      List.append_assoc, List.append_assoc]
    have hdone' : ((done ++ formatTime specifier.segment time ++
        specifier.final secondsStr digits).length : ℤ) =
          (specifier.position + specifier.width : ℕ) +
          (previous + specifier.growth formatTime time secondsStr) := by
      have hfinal := @Specifier.length_final secondsStr digits specifier hdigits hwidth hle
      rw [List.length_append, List.length_append, Specifier.growth, hposition]
      push_cast
      omega
    have hrest := ih _ hdone' hfit.2
    simp only [List.append_assoc] at hrest
    by_cases hsubsecond : 0 < specifier.width ∧ specifier.second = false
    · have hsubstr : substr nanoseconds secondsLength specifier.width =
          some (digits.take specifier.width) := by
        rw [substr, if_pos hlength, hnanoseconds]
      have hplace : (specifier.position : ℤ) +
          toInt32 (previous + specifier.growth formatTime time secondsStr) =
          (done ++ formatTime specifier.segment time).length := by
        have hgrowth : specifier.growth formatTime time secondsStr =
            (formatTime specifier.segment time).length + 0 - specifier.segment.length := by
          rw [Specifier.growth, if_neg (Bool.eq_false_iff.1 hsubsecond.2)]
        rw [toInt32_of_fits (hfit.1 hsubsecond), hgrowth, hposition, List.length_append]
        push_cast
        omega
      have hreplace := @Specifier.replace_placeholder secondsStr digits specifier hsubsecond.2
        (done ++ formatTime specifier.segment time) (specifiers.flatMap fun specifier ↦
          formatTime specifier.segment time ++ specifier.placeholder secondsStr) _ hplace
      rw [List.append_assoc, List.append_assoc] at hreplace
      rw [if_pos hsubsecond]
      show (substr nanoseconds secondsLength specifier.width).bind _ = _
      rw [hsubstr]
      show (replace _ _ _ _).bind _ = _
      rw [hreplace]
      exact hrest
    · rw [if_neg hsubsecond, Specifier.placeholder_eq_final hsubsecond]
      exact hrest

end TcpServer.Common
