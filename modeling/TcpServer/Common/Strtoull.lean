import TcpServer.Lib.FormattedInput
import TcpServer.Common.Itoa

/-!
# `StringUtil::strtoull` and `StringUtil::atoull`

The text before a NUL is converted in base ten. `std::strtoull` takes what formatted input takes for
a number: whitespace, a sign and digits, a negative number wraps around. What the functions make of
its result is said case by case (`Converts`), and this describes them completely (`strtoull_iff`).
So `atoull` accepts just the texts that a number can be read from, up to their end (`atoull_iff`),
among them what `itoa` has written (`atoull_itoa`).

The functions work on memory that goes on behind the NUL, and only what is before it may matter;
where the conversion ends is an offset. A conversion that takes no digits, and one that is out of
range, both return `nullptr`, but they leave different values in `out`, so the cases of `Converts`
say what `out` is as well.

The last section goes the other way round: the numeral that `itoa` leaves in memory is the only
canonical text from which `atoull` reads that number.
-/

namespace TcpServer.Strtoull

open FormattedInput FormattedInput.Istream Itoa Numerals

/-- What `std::strtoull` returns, whether it sets `errno` to `ERANGE`, and how far `end_ptr` is from
`str`. -/
structure Conversion where
  /-- The number. -/
  value : BitVec 64
  /-- Whether the number had too many digits for 64 bits. -/
  outOfRange : Bool
  /-- How many bytes were taken, whitespace and sign included. -/
  endPtr : ℕ
deriving DecidableEq

/-- `std::strtoull` in base ten, of the bytes before the NUL. -/
def convert (text : List UInt8) : Conversion :=
  let signed := takeSign (text.dropWhile isSpace)
  let digits := signed.2.takeWhile isDigit
  let endPtr := text.length - (signed.2.dropWhile isDigit).length
  if digits.isEmpty then ⟨0, false, 0⟩
  else if 2 ^ 64 ≤ valueOf digits then ⟨.allOnes 64, true, endPtr⟩
  else ⟨signedValue 64 signed.1 digits, false, endPtr⟩

/-- `strlen` of the memory from `str` on. It has no result where there is no NUL. -/
def strlen (str : List UInt8) : Option ℕ := if 0 ∈ str then some (str.takeWhile (· ≠ 0)).length
    else none

/-- The offset of the pointer that is returned, none for `nullptr`, and `out`. -/
def strtoull (str : List UInt8) (out : BitVec 64) : Option (Option ℕ × BitVec 64) := do
  let n ← strlen str
  if n = 0 then some (none, out)
  else
    let r := convert (str.take n)
    if r.endPtr = 0 ∨ r.value = .allOnes 64 ∧ r.outOfRange then some (none, r.value)
    else some (some r.endPtr, r.value)

/-- `atoull`: the number has to end where the text does. -/
def atoull (str : List UInt8) (out : BitVec 64) : Option (Bool × BitVec 64) := do
  let (endPtr, out) ← strtoull str out
  match endPtr with
  | none => some (false, out)
  | some p =>
    let c ← str[p]?
    some (c = 0, out)

/-- The result for a text and the value that `out` had. -/
inductive Converts (out : BitVec 64) : List UInt8 → Option ℕ × BitVec 64 → Prop
  | empty : Converts out [] (none, out)
  | noNumber {text : List UInt8} (hne : text ≠ [])
      (hno : ∀ spaces sign digits rest negative, Spaces spaces → Sign sign negative →
        Numeral digits →
        text ≠ spaces ++ (sign ++ (digits ++ rest))) : Converts out text (none, 0)
  | tooGreat {spaces sign digits rest : List UInt8} {negative : Bool} (hspaces : Spaces spaces)
      (hsign : Sign sign negative) (hdigits : Numeral digits) (hrest : Stops isDigit rest)
      (hle : 2 ^ 64 ≤ valueOf digits) :
      Converts out (spaces ++ (sign ++ (digits ++ rest))) (none, .allOnes 64)
  | number {text rest : List UInt8} {v : BitVec 64} (hreads : Reads text v)
      (hrest : Stops isDigit rest) :
      Converts out (text ++ rest) (some text.length, v)

variable {text rest memory spaces sign digits : List UInt8} {negative : Bool} {v out : BitVec 64}
  {r : Option ℕ × BitVec 64}

/-! ### Conversion

Formatted input and `strtoull` take the same prefixes of a text. A text is cut into whitespace, a
sign, digits and a rest that does not begin with a digit.
-/

/-- A number as great as it may be is converted. -/
theorem convert_append (hspaces : Spaces spaces) (hsign : Sign sign negative)
    (hdigits : Numeral digits)
    (hrest : Stops isDigit rest) :
    convert (spaces ++ (sign ++ (digits ++ rest))) =
      if 2 ^ 64 ≤ valueOf digits then ⟨.allOnes 64, true, (spaces ++ (sign ++ digits)).length⟩
      else ⟨signedValue 64 negative digits, false, (spaces ++ (sign ++ digits)).length⟩ := by
  obtain ⟨c, l, hcons, hc⟩ := exists_cons_of_sign hsign hdigits
  have hstops : Stops isSpace (sign ++ (digits ++ rest)) := by
    rw [← List.append_assoc, hcons]
    exact stops_cons hc
  have hdrop := (takeWhile_append hspaces hstops).2
  have hhead : ∀ c ∈ (digits ++ rest).head?, isDigit c = true := head?_of_numeral hdigits
  have hsigned := takeSign_append hsign hhead
  obtain ⟨htake, hdigits_drop⟩ := takeWhile_append hdigits.isDigit hrest
  have hne : ¬ digits.isEmpty = true := List.isEmpty_iff.not.2 hdigits.ne_nil
  have hlen : (spaces ++ (sign ++ (digits ++ rest))).length - rest.length =
      (spaces ++ (sign ++ digits)).length := by
    simp only [List.length_append]
    omega
  rw [convert, hdrop, hsigned]
  dsimp only
  rw [htake, hdigits_drop, if_neg hne, hlen]

/-- What can be read as a number is converted, up to its end. -/
theorem convert_of_reads (hreads : Reads text v) (hrest : Stops isDigit rest) :
    convert (text ++ rest) = ⟨v, false, text.length⟩ := by
  obtain ⟨hspaces, hsign, hdigits, hlt⟩ := hreads
  rw [List.append_assoc, List.append_assoc, convert_append hspaces hsign hdigits hrest,
    if_neg (Nat.not_le.2 hlt)]

/-- Without digits where they may be, nothing is converted. -/
theorem convert_of_noNumber
    (hno : ∀ spaces sign digits rest negative, Spaces spaces → Sign sign negative → Numeral digits →
      text ≠ spaces ++ (sign ++ (digits ++ rest))) : convert text = ⟨0, false, 0⟩ := by
  refine if_pos (not_not.1 fun hempty ↦ ?_)
  obtain ⟨sign, hsign, hsplit⟩ := exists_sign (text.dropWhile isSpace)
  have hdigits : Numeral ((takeSign (text.dropWhile isSpace)).2.takeWhile isDigit) :=
    ⟨List.isEmpty_iff.not.1 hempty, fun _ hd ↦ List.mem_takeWhile_imp hd⟩
  refine hno (text.takeWhile isSpace) sign _ ((takeSign (text.dropWhile isSpace)).2.dropWhile
    isDigit) _
    (fun _ hd ↦ List.mem_takeWhile_imp hd) hsign hdigits ?_
  rw [List.takeWhile_append_dropWhile, ← hsplit, List.takeWhile_append_dropWhile]

/-- Digits where they may be end somewhere. -/
theorem exists_stops (hdigits : Numeral digits) (rest : List UInt8) :
    ∃ digits' rest', Numeral digits' ∧ Stops isDigit rest' ∧ digits ++ rest = digits' ++ rest' := by
  refine ⟨digits ++ rest.takeWhile isDigit, rest.dropWhile isDigit,
    ⟨List.append_ne_nil_of_left_ne_nil hdigits.ne_nil _, fun c hc ↦ ?_⟩,
      stops_dropWhile isDigit rest, ?_⟩
  · rcases List.mem_append.1 hc with hc | hc
    · exact hdigits.isDigit c hc
    · exact List.mem_takeWhile_imp hc
  · rw [List.append_assoc, List.takeWhile_append_dropWhile]

/-! ### The result

One case of `Converts` holds for each text, and the functions have no other result.
-/

/-- The length ends at the first NUL. -/
theorem strlen_append (h : 0 ∉ text) : strlen (text ++ 0 :: memory) = some text.length := by
  have hpos : ∀ c ∈ text, decide (c ≠ 0) = true :=
    fun c hc ↦ decide_eq_true fun hzero ↦ h (hzero ▸ hc)
  have htake : (text ++ 0 :: memory).takeWhile (· ≠ 0) = text :=
    (takeWhile_append hpos (stops_cons (decide_eq_false (not_not.2 rfl)))).1
  rw [strlen, if_pos (List.mem_append_right _ List.mem_cons_self), htake]

/-- The result of `strtoull`, by what the conversion gives. -/
theorem strtoull_append (h : 0 ∉ text) (hne : text ≠ []) :
    strtoull (text ++ 0 :: memory) out =
      if (convert text).endPtr = 0 ∨ (convert text).value = .allOnes 64 ∧
        (convert text).outOfRange then
        some (none, (convert text).value)
      else some (some (convert text).endPtr, (convert text).value) := by
  rw [strtoull, strlen_append h, Option.bind_eq_bind, Option.bind_some,
    if_neg (List.length_eq_zero_iff.not.2 hne), List.take_left]

/-- A case of `Converts` is what the function does. -/
theorem strtoull_of_converts (h : 0 ∉ text) (hconverts : Converts out text r) :
    strtoull (text ++ 0 :: memory) out = some r := by
  match hconverts with
  | .empty =>
    rw [strtoull, strlen_append h]
    rfl
  | .noNumber hne hno =>
    rw [strtoull_append h hne, convert_of_noNumber hno]
    rfl
  | .tooGreat hspaces hsign hdigits hrest hle =>
    have hne := hdigits.ne_nil
    rw [strtoull_append h (by simp [hne]), convert_append hspaces hsign hdigits hrest, if_pos hle]
    exact if_pos (Or.inr ⟨rfl, rfl⟩)
  | .number hreads hrest =>
    have hne := hreads.ne_nil
    rw [strtoull_append h (List.append_ne_nil_of_left_ne_nil hne _), convert_of_reads hreads hrest]
    refine if_neg (not_or.2 ⟨List.length_eq_zero_iff.not.2 hne, fun hrange ↦ ?_⟩)
    exact absurd hrange.2 Bool.false_ne_true

/-- Some case holds, whatever the text. -/
theorem exists_converts (out : BitVec 64) (text : List UInt8) : ∃ r, Converts out text r := by
  by_cases hne : text = []
  · subst hne
    exact ⟨_, .empty⟩
  by_cases hno : ∀ spaces sign digits rest negative, Spaces spaces → Sign sign negative →
    Numeral digits →
      text ≠ spaces ++ (sign ++ (digits ++ rest))
  · exact ⟨_, .noNumber hne hno⟩
  · simp only [not_forall, not_not] at hno
    obtain ⟨spaces, sign, digits, rest, negative, hspaces, hsign, hdigits, rfl⟩ := hno
    obtain ⟨digits, rest, hdigits, hrest, hsplit⟩ := exists_stops hdigits rest
    rw [hsplit]
    rcases Nat.lt_or_ge (valueOf digits) (2 ^ 64) with hlt | hle
    · have hnumber : Converts out ((spaces ++ (sign ++ digits)) ++ rest) _ :=
        .number (.intro hspaces hsign hdigits hlt) hrest
      rw [List.append_assoc, List.append_assoc] at hnumber
      exact ⟨_, hnumber⟩
    · exact ⟨_, .tooGreat hspaces hsign hdigits hrest hle⟩

/-- **The result of `strtoull`**, whatever the text. -/
theorem strtoull_iff (text memory : List UInt8) (h : 0 ∉ text) (out : BitVec 64)
    (r : Option ℕ × BitVec 64) :
    strtoull (text ++ 0 :: memory) out = some r ↔ Converts out text r := by
  refine ⟨fun hr ↦ ?_, strtoull_of_converts h⟩
  obtain ⟨r', hr'⟩ := exists_converts out text
  obtain rfl : r = r' := Option.some.inj (hr.symm.trans (strtoull_of_converts h hr'))
  exact hr'

/-- Of ` -1x` the number is read, which wraps around. -/
theorem strtoull_iff_minusOne :
    strtoull [32, 45, 49, 120, 0, 7] 5 = some (some 3, .allOnes 64) ↔
      Converts 5 [32, 45, 49, 120] (some 3, .allOnes 64) :=
  strtoull_iff [32, 45, 49, 120] [7] (by decide) 5 _

/-! ### `atoull`

`atoull` looks at the character where the conversion has ended, so a text is accepted if the number
is all of it.
-/

/-- Where no number is taken, the text is rejected. -/
theorem atoull_of_none (h : 0 ∉ text) (hconverts : Converts out text (none, v)) :
    atoull (text ++ 0 :: memory) out = some (false, v) := by
  rw [atoull, strtoull_of_converts h hconverts]
  rfl

/-- Where one is taken, the text is accepted if there is nothing behind it. -/
theorem atoull_of_number (h : 0 ∉ text ++ rest) (hreads : Reads text v)
    (hrest : Stops isDigit rest) :
    atoull (text ++ rest ++ 0 :: memory) out = some (decide (rest = []), v) := by
  have hget : (text ++ rest ++ 0 :: memory)[text.length]? =
      some ((rest ++ 0 :: memory).head (by simp)) := by
    rw [List.append_assoc, List.getElem?_append_right le_rfl, Nat.sub_self,
      ← List.head?_eq_getElem?, List.head?_eq_some_head]
  rw [atoull, strtoull_of_converts h (.number hreads hrest)]
  dsimp only [Option.bind_eq_bind, Option.bind_some]
  rw [hget]
  match rest with
  | [] => rfl
  | c :: rest =>
    have hc : c ≠ 0 := fun hzero ↦ h (List.mem_append_right _ (hzero ▸ List.mem_cons_self))
    show some (decide (c = 0), v) = some (decide (c :: rest = []), v)
    rw [decide_eq_false hc, decide_eq_false (List.cons_ne_nil c rest)]

/-- **What `atoull` accepts** is what a number can be read from. -/
theorem atoull_iff (h : 0 ∉ text) : atoull (text ++ 0 :: memory) out = some (true, v) ↔
    Reads text v := by
  constructor
  · intro htrue
    obtain ⟨⟨endPtr, v'⟩, hconverts⟩ := exists_converts out text
    match endPtr with
    | none => exact absurd (htrue.symm.trans (atoull_of_none h hconverts)) (by simp)
    | some p =>
      cases hconverts with
      | @number text rest v' hreads hrest =>
        have hend := htrue.symm.trans (atoull_of_number h hreads hrest)
        rw [Option.some.injEq, Prod.mk.injEq, eq_comm, decide_eq_true_iff] at hend
        obtain ⟨rfl, rfl⟩ := hend
        rwa [List.append_nil]
  · intro hreads
    have hnumber : atoull (text ++ [] ++ 0 :: memory) out = some (true, v) :=
      atoull_of_number (by rwa [List.append_nil]) hreads (stops_nil isDigit)
    rwa [List.append_nil] at hnumber

/-! ### Back from `itoa`

A canonical numeral has neither whitespace nor a sign nor a leading zero, so there is one for each
number, and reading it back finds that number.
-/

/-- The characters as they are in memory. -/
def bytesOf (s : List Char) : List UInt8 := s.map fun c ↦ .ofNat c.toNat

/-- A digit is the same as a character and as a byte. -/
theorem toNat_ofNat_toNat {c : Char} (hc : c.isDigit = true) :
    (UInt8.ofNat c.toNat).toNat = c.toNat ∧ isDigit (.ofNat c.toNat) = true := by
  have hrange : 48 ≤ c.toNat ∧ c.toNat ≤ 57 := by
    rw [Char.isDigit, Bool.and_eq_true, decide_eq_true_iff, decide_eq_true_iff] at hc
    exact hc
  have hbyte : (UInt8.ofNat c.toNat).toNat = c.toNat := by
    rw [UInt8.toNat_ofNat']
    omega
  refine ⟨hbyte, decide_eq_true ?_⟩
  rw [UInt8.le_iff_toNat_le, UInt8.le_iff_toNat_le, hbyte]
  exact hrange

/-- A canonical numeral in memory is a numeral of the same value. -/
theorem numeral_bytesOf {t : List Char} (ht : IsNumeral t) :
    Numeral (bytesOf t) ∧ valueOf (bytesOf t) = Nat.ofDigitChars 10 t 0 := by
  refine ⟨⟨List.map_eq_nil_iff.not.2 ht.ne_nil, fun b hb ↦ ?_⟩, ?_⟩
  · obtain ⟨c, hc, rfl⟩ := List.mem_map.1 hb
    exact (toNat_ofNat_toNat (ht.isDigit c hc)).2
  · rw [valueOf, bytesOf, List.foldl_map, Nat.ofDigitChars_eq_foldl]
    refine List.foldl_ext _ _ _ fun n c hc ↦ ?_
    rw [(toNat_ofNat_toNat (ht.isDigit c hc)).1]
    rfl

/-- A numeral without a sign is read as its value, if that has 64 bits. -/
theorem reads_iff_of_numeral (hdigits : Numeral digits) :
    Reads digits v ↔ valueOf digits = v.toNat := by
  constructor
  · intro hreads
    have hread := convert_of_reads hreads (stops_nil isDigit)
    have hplain := convert_append spaces_nil .none hdigits (stops_nil isDigit)
    rw [List.append_nil] at hread
    rw [List.nil_append, List.nil_append, List.append_nil, hread] at hplain
    split_ifs at hplain with hle
    · exact absurd (congrArg Conversion.outOfRange hplain) Bool.false_ne_true
    · have hv : v = signedValue 64 false digits := congrArg Conversion.value hplain
      rw [hv]
      exact (Nat.mod_eq_of_lt (Nat.not_le.1 hle)).symm
  · intro hvalue
    have hreads := hdigits.reads (w := 64) (hvalue ▸ v.isLt)
    rwa [hvalue, BitVec.ofNat_toNat, BitVec.setWidth_eq] at hreads

/-- There is no NUL among the digits. -/
theorem zero_notMem_bytesOf {t : List Char} (ht : IsNumeral t) : 0 ∉ bytesOf t := fun hzero ↦
  absurd ((numeral_bytesOf ht).1.isDigit 0 hzero) (by decide)

/-- A canonical numeral is accepted for the number that it is the numeral of. -/
theorem atoull_bytesOf_iff {t : List Char} (ht : IsNumeral t) (memory : List UInt8)
    (v i : BitVec 64) :
    atoull (bytesOf t ++ 0 :: memory) v = some (true, i) ↔ t = Nat.toDigits 10 i.toNat := by
  obtain ⟨hnumeral, hvalue⟩ := numeral_bytesOf ht
  rw [atoull_iff (zero_notMem_bytesOf ht), reads_iff_of_numeral hnumeral, hvalue]
  constructor
  · intro h
    rw [← h, ht.toDigits_eq]
  · rintro rfl
    exact Nat.ofDigitChars_ten_toDigits

/-- The text in memory after `itoa`. -/
theorem takeWhile_toDigits (n : ℕ) (rest : List Char) :
    (Nat.toDigits 10 n ++ .ofNat 0 :: rest).takeWhile (· ≠ .ofNat 0) = Nat.toDigits 10 n := by
  have hpos : ∀ c ∈ Nat.toDigits 10 n, decide (c ≠ .ofNat 0) = true := by
    intro c hc
    refine decide_eq_true fun hzero ↦ ?_
    exact notMem_toDigits (by decide) (by decide) (by decide) (hzero ▸ hc)
  rw [List.takeWhile_append_of_pos hpos]
  exact List.append_nil _

/-- **Back from `itoa`**: what it leaves in memory for a number is the canonical numeral that
`atoull` reads the number from. -/
theorem itoa_iff_atoull (output : List Char) (bufferSize : ℕ) (i v : BitVec 64)
    (memory : List UInt8)
    (hsize : 21 ≤ bufferSize) (hout : 21 ≤ output.length) (t : List Char) :
    (∃ size output', itoa output bufferSize i = some (.returned size output') ∧
        output'.takeWhile (· ≠ .ofNat 0) = t ∧ size.toNat = t.length) ↔
      IsNumeral t ∧ atoull (bytesOf t ++ 0 :: memory) v = some (true, i) := by
  have hlen : (BitVec.ofNat 32 (Nat.toDigits 10 i.toNat).length).toNat =
      (Nat.toDigits 10 i.toNat).length := by
    have hle := length_toDigits_le_twenty i
    rw [BitVec.toNat_ofNat]
    omega
  constructor
  · rintro ⟨size, output', hitoa, rfl, -⟩
    rw [itoa_eq i hsize hout, Option.some.injEq, Outcome.returned.injEq] at hitoa
    obtain ⟨-, rfl⟩ := hitoa
    rw [takeWhile_toDigits]
    exact ⟨isNumeral_toDigits _, (atoull_bytesOf_iff (isNumeral_toDigits _) memory v i).2 rfl⟩
  · rintro ⟨ht, hatoull⟩
    obtain rfl := (atoull_bytesOf_iff ht memory v i).1 hatoull
    exact ⟨_, _, itoa_eq i hsize hout, takeWhile_toDigits _ _, hlen⟩

/-- The greatest number is written and read back. -/
theorem itoa_iff_atoull_maxUint64 :
    (∃ size output', itoa (List.replicate 21 ' ') 21 (.allOnes 64) = some (.returned size output') ∧
        output'.takeWhile (· ≠ .ofNat 0) = "18446744073709551615".toList ∧
        size.toNat = "18446744073709551615".toList.length) ↔
      IsNumeral "18446744073709551615".toList ∧
        atoull (bytesOf "18446744073709551615".toList ++ 0 :: [7]) 0 = some (true, .allOnes 64) :=
  itoa_iff_atoull (List.replicate 21 ' ') 21 (.allOnes 64) 0 [7] (by decide) (by decide) _

/-- `-1` is the greatest number. -/
example : atoull [45, 49, 0] 5 = some (true, .allOnes 64) := by decide

end TcpServer.Strtoull
