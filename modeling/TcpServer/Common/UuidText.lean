import TcpServer.Lib.Endian
import TcpServer.Lib.InPlace
import Mathlib.Data.List.Basic
import Mathlib.Tactic.Common

/-!
# The text of a UUID

The sixteen bytes are written as digits into an array of thirty-six characters, in five loops with a
dash between them. The array is written from the left without a gap (`filled`), so that the text is
the five groups of digits with dashes between them (`uuidText_eq`), and for bytes that are marked as
version 4 it is the text of a UUID (`isUuid_dashed`).

The array starts without values, as the source leaves it, so a character that no loop stores would
have no value and the text no result. Writing outside the array has no result either (`put`).
Neither happens for sixteen bytes.

What a UUID is (`IsUuid`) is said without the loops: the length, the places of the dashes, the
alphabet, the two characters that are fixed by the marks, and that the digits encode the marked
bytes.
-/

namespace TcpServer.Random

open InPlace

/-! ### The loops

The first index runs over the bytes, and a second number counts the dashes that were stored, since
two digits for each byte and the dashes so far are the place of the next digit.
-/

/-- The number of characters. -/
def uuidLength : ℕ := 36

/-- The characters of the digits, by value. -/
def hex : List Char := "0123456789abcdef".toList

/-- A character is stored; the array has no value before. -/
def put (uuid : List (Option Char)) (i : ℕ) (c : Char) : Option (List (Option Char)) :=
  if i < uuid.length then some (uuid.set i (some c)) else none

/-- The two digits of byte `i`, behind the `shift` dashes that stand before them. -/
def writeHex (rand : List (BitVec 8)) (shift : ℕ) (uuid : List (Option Char)) (i : ℕ) :
    Option (List (Option Char)) := do
  let d ← rand[i]?
  let high ← hex[(d >>> 4).toNat]?
  let low ← hex[(d &&& 0x0f).toNat]?
  let uuid ← put uuid (2 * i + shift) high
  put uuid (2 * i + shift + 1) low

/-- The five loops and the dashes between them, and the text if every character has a value. -/
def uuidText (rand : List (BitVec 8)) : Option (List Char) := do
  let uuid ← (List.range' 0 4).foldlM (writeHex rand 0) (List.replicate uuidLength none)
  let uuid ← put uuid 8 '-'
  let uuid ← (List.range' 4 2).foldlM (writeHex rand 1) uuid
  let uuid ← put uuid 13 '-'
  let uuid ← (List.range' 6 2).foldlM (writeHex rand 2) uuid
  let uuid ← put uuid 18 '-'
  let uuid ← (List.range' 8 2).foldlM (writeHex rand 3) uuid
  let uuid ← put uuid 23 '-'
  let uuid ← (List.range' 10 6).foldlM (writeHex rand 4) uuid
  uuid.mapM id

/-! ### What the text says

The specification speaks of places in the text and of the characters that are there.
-/

/-- The two digits of a byte. -/
def hexPair (d : BitVec 8) : List Char := [Nat.digitChar (d.toNat / 16),
      Nat.digitChar (d.toNat % 16)]

/-- Byte 6 has the version in its upper half and byte 8 has the variant in its upper two bits. -/
def stamped (bytes : List (BitVec 8)) : List (BitVec 8) :=
  (bytes.modify 6 fun d ↦ .ofNat 8 (0x40 + d.toNat % 16)).modify 8 fun d ↦
    .ofNat 8 (0x80 + d.toNat % 64)

/-- The text is a UUID that encodes the bytes. -/
structure IsUuid (bytes : List (BitVec 8)) (s : List Char) : Prop where
  /-- It has thirty-six characters. -/
  length_eq : s.length = uuidLength
  /-- There are dashes at four places and nowhere else. -/
  dash_iff : ∀ i, s[i]? = some '-' ↔ i ∈ [8, 13, 18, 23]
  /-- All other characters are digits. -/
  mem_hex : ∀ c ∈ s, c = '-' ∨ c ∈ hex
  /-- The version is 4. -/
  version : s[14]? = some '4'
  /-- The variant is one of four digits. -/
  variant : ∃ c ∈ ['8', '9', 'a', 'b'], s[19]? = some c
  /-- Without the dashes it is the digits of the marked bytes. -/
  encodes : s.filter (· ≠ '-') = (stamped bytes).flatMap hexPair

/-! ### The array is written from the left

As the loops leave no gap, the array is always a text followed by places without a value. Each loop
appends the digits of its bytes, each assignment a dash.
-/

/-- The array after the characters `s` were stored. -/
def filled (s : List Char) : List (Option Char) :=
  s.map some ++ List.replicate (uuidLength - s.length) none

/-- The digits of `n` bytes from byte `i` on. -/
def digits (rand : List (BitVec 8)) (i n : ℕ) : List Char := ((rand.drop i).take n).flatMap hexPair

/-- Groups of eight, four, four, four and twelve digits. -/
def dashed (rand : List (BitVec 8)) : List Char :=
  digits rand 0 4 ++ '-' :: (digits rand 4 2 ++ '-' :: (digits rand 6 2 ++ '-' ::
    (digits rand 8 2 ++ '-' :: digits rand 10 6)))

variable {rand : List (BitVec 8)} {s : List Char} {d : BitVec 8} {i n shift : ℕ}

/-- The table has the digits at their values. -/
theorem hex_digit (hn : n < 16) : hex[n]? = some (Nat.digitChar n) := by
  have h : ∀ m < 16, hex[m]? = some (Nat.digitChar m) := by decide
  exact h n hn

/-- The upper half of a byte is its first digit. -/
theorem hex_high (d : BitVec 8) : hex[(d >>> 4).toNat]? = some (Nat.digitChar (d.toNat / 16)) := by
  have hd := d.isLt
  rw [BitVec.toNat_ushiftRight, Nat.shiftRight_eq_div_pow]
  exact hex_digit (show d.toNat / 16 < 16 by omega)

/-- The lower half is its second digit. -/
theorem hex_low (d : BitVec 8) : hex[(d &&& 0x0f).toNat]? =
    some (Nat.digitChar (d.toNat % 16)) := by
  have hand : (d &&& 0x0f).toNat = d.toNat % 16 := Endian.toNat_and_mask (k := 4) d rfl
  rw [hand]
  exact hex_digit (Nat.mod_lt _ (by decide))

/-- A character stored at the next place is appended. -/
theorem put_filled (hs : s.length = i) (hi : i < uuidLength) (c : Char) :
    put (filled s) i c = some (filled (s ++ [c])) := by
  have hfree : uuidLength - s.length = uuidLength - (s ++ [c]).length + 1 := by
    rw [List.length_append, List.length_singleton]
    omega
  have hput : put (filled s) i c = write i (some c) (filled s) := rfl
  rw [hput, filled, filled, hfree, List.replicate_succ, write_append (by rw [List.length_map, hs]),
    List.map_append, List.append_assoc]
  rfl

/-- A byte has two digits. -/
theorem length_hexPair (d : BitVec 8) : (hexPair d).length = 2 := rfl

/-- The digits of a byte are appended. -/
theorem writeHex_filled (hd : rand[i]? = some d) (hs : s.length = 2 * i + shift)
    (hi : 2 * i + shift + 1 < uuidLength) :
    writeHex rand shift (filled s) i = some (filled (s ++ hexPair d)) := by
  have hnext : (s ++ [Nat.digitChar (d.toNat / 16)]).length = 2 * i + shift + 1 := by
    rw [List.length_append, hs, List.length_singleton]
  rw [writeHex, hd, Option.bind_eq_bind, Option.bind_some, hex_high, Option.bind_eq_bind,
    Option.bind_some, hex_low, Option.bind_eq_bind, Option.bind_some, put_filled hs (by omega),
    Option.bind_some, put_filled hnext hi, List.append_assoc]
  rfl

/-- A loop over consecutive bytes stores their digits in order. -/
theorem foldlM_writeHex (hrand : i + n ≤ rand.length) (hs : s.length = 2 * i + shift)
    (hlen : 2 * (i + n) + shift ≤ uuidLength) :
    (List.range' i n).foldlM (writeHex rand shift) (filled s) =
      some (filled (s ++ digits rand i n)) := by
  induction n generalizing i s with
  | zero => rw [List.range'_zero, List.foldlM_nil, digits, List.take_zero, List.flatMap_nil,
      List.append_nil]; rfl
  | succ n ih =>
    have hi : i < rand.length := by omega
    have hdrop : digits rand i (n + 1) = hexPair rand[i] ++ digits rand (i + 1) n := by
      rw [digits, List.drop_eq_getElem_cons hi, List.take_succ_cons, List.flatMap_cons, digits]
    rw [List.range'_succ, List.foldlM_cons, writeHex_filled (List.getElem?_eq_getElem hi) hs
      (by omega), Option.bind_eq_bind, Option.bind_some, ih (by omega) _ (by omega), hdrop,
      List.append_assoc]
    rw [List.length_append, hs, length_hexPair]
    omega

/-- Two digits for each byte. -/
theorem length_digits (h : i + n ≤ rand.length) : (digits rand i n).length = 2 * n := by
  induction n generalizing i with
  | zero => rfl
  | succ n ih =>
    rw [digits, List.drop_eq_getElem_cons (by omega), List.take_succ_cons, List.flatMap_cons,
      List.length_append, length_hexPair]
    show 2 + (digits rand (i + 1) n).length = _
    rw [ih (by omega)]
    omega

/-- An array that is full has a value everywhere. -/
theorem filled_eq_map (hs : s.length = uuidLength) : filled s = s.map some := by
  rw [filled, hs, Nat.sub_self, List.replicate_zero, List.append_nil]

/-- All characters are stored, each where it belongs. -/
theorem uuidText_eq (h : rand.length = 16) : uuidText rand = some (dashed rand) := by
  have hstart : List.replicate uuidLength none = filled [] := rfl
  have hlen : ∀ i n, i + n ≤ 16 → (digits rand i n).length = 2 * n :=
    fun i n hin ↦ length_digits (by rw [h]; exact hin)
  have hfour := hlen 0 4 (by decide)
  have hsix := hlen 4 2 (by decide)
  have height := hlen 6 2 (by decide)
  have hten := hlen 8 2 (by decide)
  have hend := hlen 10 6 (by decide)
  have hsize : uuidLength = 36 := rfl
  rw [uuidText, hstart, foldlM_writeHex (by omega) rfl (by decide), Option.bind_eq_bind,
    Option.bind_some, put_filled (by simp [hfour]) (by decide), Option.bind_some,
    foldlM_writeHex (by omega) (by simp [hfour]) (by decide), Option.bind_some,
    put_filled (by simp [hfour, hsix]) (by decide), Option.bind_some,
    foldlM_writeHex (by omega) (by simp [hfour, hsix]) (by decide), Option.bind_some,
    put_filled (by simp [hfour, hsix, height]) (by decide), Option.bind_some,
    foldlM_writeHex (by omega) (by simp [hfour, hsix, height]) (by decide), Option.bind_some,
    put_filled (by simp [hfour, hsix, height, hten]) (by decide), Option.bind_some,
    foldlM_writeHex (by omega) (by simp [hfour, hsix, height, hten]) (by decide), Option.bind_some,
    filled_eq_map (by simp [hfour, hsix, height, hten, hend, hsize]), mapM_map_some]
  simp [dashed]

/-! ### The format

The text is five groups with dashes between them, and the digits of a group are never dashes, so
that the dashes of the text and their places are known from the lengths of the groups.
-/

/-- The digits are hexadecimal ones. -/
theorem digitChar_mem_hex (h : n < 16) : Nat.digitChar n ∈ hex := List.mem_of_getElem? (hex_digit h)

/-- So are all characters of a group. -/
theorem mem_hex_of_mem_digits {c : Char} (h : c ∈ digits rand i n) : c ∈ hex := by
  obtain ⟨d, -, hc⟩ := List.mem_flatMap.1 h
  have hd := d.isLt
  rcases List.mem_cons.1 hc with rfl | hc
  · exact digitChar_mem_hex (by omega)
  · rw [List.mem_singleton.1 hc]
    exact digitChar_mem_hex (by omega)

/-- A group has no dash in it. -/
theorem dash_notMem_digits : '-' ∉ digits rand i n :=
  fun h ↦ absurd (mem_hex_of_mem_digits h) (by decide)

/-- The dash behind a group is the next one. -/
theorem getElem?_group {rest : List Char} (hs : '-' ∉ s) :
    (s ++ '-' :: rest)[i]? = some '-' ↔
      i = s.length ∨ s.length < i ∧ rest[i - s.length - 1]? = some '-' := by
  by_cases hi : i < s.length
  · rw [List.getElem?_append_left hi]
    constructor
    · exact fun h ↦ absurd (List.mem_of_getElem? h) hs
    · omega
  · rw [List.getElem?_append_right (by omega)]
    by_cases heq : i = s.length
    · rw [heq, Nat.sub_self]
      exact ⟨fun _ ↦ Or.inl rfl, fun _ ↦ rfl⟩
    · rw [List.getElem?_cons, if_neg (by omega)]
      exact ⟨fun h ↦ Or.inr ⟨by omega, h⟩, fun h ↦ (h.resolve_left heq).2⟩

/-- The dashes are at the places of the format. -/
theorem getElem?_dashed_eq_dash (h : rand.length = 16) :
    (dashed rand)[i]? = some '-' ↔ i ∈ [8, 13, 18, 23] := by
  have hlast : ∀ j, (digits rand 10 6)[j]? ≠ some '-' :=
    fun j hj ↦ dash_notMem_digits (List.mem_of_getElem? hj)
  rw [dashed, getElem?_group dash_notMem_digits, getElem?_group dash_notMem_digits,
    getElem?_group dash_notMem_digits, getElem?_group dash_notMem_digits, length_digits (by omega),
    length_digits (by omega), length_digits (by omega), length_digits (by omega)]
  simp only [hlast, and_false, or_false, List.mem_cons, List.not_mem_nil]
  omega

/-- Five groups and four dashes have thirty-six characters. -/
theorem length_dashed (h : rand.length = 16) : (dashed rand).length = uuidLength := by
  simp [dashed, length_digits, h, uuidLength]

/-- Without the dashes, the groups are the digits of all bytes. -/
theorem filter_dashed (h : rand.length = 16) :
    (dashed rand).filter (· ≠ '-') = rand.flatMap hexPair := by
  have hkeep : ∀ i n, (digits rand i n).filter (· ≠ '-') = digits rand i n := by
    intro i n
    refine List.filter_eq_self.2 fun c hc ↦ decide_eq_true ?_
    rintro rfl
    exact dash_notMem_digits hc
  have hdash : ∀ rest : List Char, ('-' :: rest).filter (· ≠ '-') = rest.filter (· ≠ '-') :=
    fun _ ↦ rfl
  rw [dashed, List.filter_append, hkeep, hdash, List.filter_append, hkeep, hdash,
    List.filter_append, hkeep, hdash, List.filter_append, hkeep, hdash, hkeep]
  match rand, h with
  | [_, _, _, _, _, _, _, _, _, _, _, _, _, _, _, _], _ => rfl

/-- The character behind the second dash is the upper half of byte 6. -/
theorem getElem?_dashed_version (h : rand.length = 16) :
    (dashed rand)[14]? = rand[6]?.map fun d ↦ Nat.digitChar (d.toNat / 16) := by
  match rand, h with
  | [_, _, _, _, _, _, _, _, _, _, _, _, _, _, _, _], _ => rfl

/-- The character behind the third dash is the upper half of byte 8. -/
theorem getElem?_dashed_variant (h : rand.length = 16) :
    (dashed rand)[19]? = rand[8]?.map fun d ↦ Nat.digitChar (d.toNat / 16) := by
  match rand, h with
  | [_, _, _, _, _, _, _, _, _, _, _, _, _, _, _, _], _ => rfl

/-- For sixteen bytes with their marks the text is a UUID. -/
theorem isUuid_dashed {bytes : List (BitVec 8)} (h : bytes.length = 16) :
    IsUuid bytes (dashed (stamped bytes)) := by
  have hlen : (stamped bytes).length = 16 := by rw [stamped, List.length_modify, List.length_modify,
    h]
  refine ⟨length_dashed hlen, fun i ↦ getElem?_dashed_eq_dash hlen, ?_, ?_, ?_, filter_dashed hlen⟩
  · intro c hc
    by_cases hdash : c = '-'
    · exact Or.inl hdash
    · have hmem : c ∈ (dashed (stamped bytes)).filter (· ≠ '-') :=
        List.mem_filter.2 ⟨hc, decide_eq_true hdash⟩
      have hall : (stamped bytes).flatMap hexPair =
          digits (stamped bytes) 0 (stamped bytes).length := by
        rw [digits, List.drop_zero, List.take_length]
      rw [filter_dashed hlen, hall] at hmem
      exact Or.inr (mem_hex_of_mem_digits hmem)
  · obtain ⟨d, hd⟩ : ∃ d, bytes[6]? = some d := ⟨bytes[6], List.getElem?_eq_getElem (by omega)⟩
    have hstamp : (stamped bytes)[6]? = some (.ofNat 8 (0x40 + d.toNat % 16)) := by
      simp [stamped, hd]
    have hdiv : (BitVec.ofNat 8 (0x40 + d.toNat % 16)).toNat / 16 = 4 := by
      rw [BitVec.toNat_ofNat]
      omega
    rw [getElem?_dashed_version hlen, hstamp, Option.map_some, hdiv]
    rfl
  · obtain ⟨d, hd⟩ : ∃ d, bytes[8]? = some d := ⟨bytes[8], List.getElem?_eq_getElem (by omega)⟩
    have hstamp : (stamped bytes)[8]? = some (.ofNat 8 (0x80 + d.toNat % 64)) := by
      simp [stamped, hd]
    have hdiv : (BitVec.ofNat 8 (0x80 + d.toNat % 64)).toNat / 16 = 8 + d.toNat % 64 / 16 := by
      rw [BitVec.toNat_ofNat]
      omega
    have hchar : ∀ m < 4, Nat.digitChar (8 + m) ∈ ['8', '9', 'a', 'b'] := by decide
    refine ⟨_, hchar (d.toNat % 64 / 16) (by omega), ?_⟩
    rw [getElem?_dashed_variant hlen, hstamp, Option.map_some, hdiv]

end TcpServer.Random
