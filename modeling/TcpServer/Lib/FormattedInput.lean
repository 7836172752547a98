import Mathlib.Algebra.Ring.Nat
import Mathlib.Data.List.TakeWhile
import Mathlib.Tactic.Common

/-!
# Formatted input

An input stream of bytes, and what `operator>>` of the C++ standard library extracts from it in the
classic locale: unsigned numbers and characters. Whitespace before them is skipped. A number may
have a sign, and a negative one wraps around.

What is extracted is a prefix of a form (`Reads`), as long as it can be: extraction succeeds on
nothing else (`getUnsigned_sound`), and on a prefix of this form if no digit follows it
(`getUnsigned_of_reads`).

The functions follow the standard in what they do on failure as well: `failbit` and `eofbit` are
set, a number that is too great leaves the greatest one in the variable, and nothing is extracted
from a stream that is not good. With these the two directions of the description can be put together
to a characterization of a whole sequence of extractions.
-/

namespace TcpServer.FormattedInput

/-- What is left to read, `eofbit` and `failbit`. -/
structure Istream where
  /-- The bytes that are left. -/
  rest : List UInt8
  /-- `eofbit`. -/
  eof : Bool := false
  /-- `failbit`. -/
  fail : Bool := false
deriving DecidableEq

/-- The whitespace of the classic locale. -/
def isSpace (c : UInt8) : Bool := c = 32 ∨ 9 ≤ c ∧ c ≤ 13

/-- A decimal digit. -/
def isDigit (c : UInt8) : Bool := 48 ≤ c ∧ c ≤ 57

/-- The number that digits stand for. -/
def valueOf (digits : List UInt8) : ℕ := digits.foldl (fun n c ↦ 10 * n + (c.toNat - 48)) 0

/-- A number of `w` bits, from a numeral of less than `2 ^ w`. -/
def signedValue (w : ℕ) (negative : Bool) (digits : List UInt8) : BitVec w :=
  if negative then -.ofNat w (valueOf digits) else .ofNat w (valueOf digits)

/-- Whether there is a minus, and what is behind the sign. -/
def takeSign : List UInt8 → Bool × List UInt8
  | [] => (false, [])
  | c :: s => if c = 43 then (false, s) else if c = 45 then (true, s) else (false, c :: s)

namespace Istream

/-- `good()`. -/
def good (s : Istream) : Bool := !s.eof && !s.fail

/-- What is done before anything is extracted. -/
def sentry (s : Istream) : Istream :=
  if s.good then
    let rest := s.rest.dropWhile isSpace
    if rest.isEmpty then { rest, eof := true, fail := true } else { s with rest }
  else { s with fail := true }

/-- `num_get::get`: what is extracted once the whitespace is skipped. It is zero after a failure, or
the greatest number if the number was too great. -/
def numGet (w : ℕ) (s : List UInt8) : BitVec w × Istream :=
  let signed := takeSign s
  let digits := signed.2.takeWhile isDigit
  let rest := signed.2.dropWhile isDigit
  if digits.isEmpty then (0, { rest, eof := rest.isEmpty, fail := true })
  else if 2 ^ w ≤ valueOf digits then (.allOnes w, { rest, eof := rest.isEmpty, fail := true })
  else (signedValue w signed.1 digits, { rest, eof := rest.isEmpty })

/-- Extraction of an unsigned number into a variable with the value `v`. -/
def getUnsigned {w : ℕ} (v : BitVec w) (s : Istream) : BitVec w × Istream :=
  let s := s.sentry
  if s.good then numGet w s.rest else (v, s)

/-- Extraction of a character. -/
def getChar (c : UInt8) (s : Istream) : UInt8 × Istream :=
  let s := s.sentry
  match s.rest with
  | [] => (c, s)
  | d :: rest => if s.good then (d, { s with rest }) else (c, s)

end Istream

/-! ### What is extracted

A text is cut into whitespace, a sign and a numeral, and what stops the extraction is the first byte
behind it that is no digit.
-/

/-- Only whitespace. -/
def Spaces (s : List UInt8) : Prop := ∀ c ∈ s, isSpace c = true

/-- A decimal number, with or without leading zeros. -/
structure Numeral (digits : List UInt8) : Prop where
  /-- There is a digit. -/
  ne_nil : digits ≠ []
  /-- There is nothing else. -/
  isDigit : ∀ c ∈ digits, isDigit c = true

/-- A sign, and whether it is a minus. -/
inductive Sign : List UInt8 → Bool → Prop
  | none : Sign [] false
  | plus : Sign [43] false
  | minus : Sign [45] true

/-- A text that a number of `w` bits is extracted from. -/
inductive Reads {w : ℕ} : List UInt8 → BitVec w → Prop
  | intro {spaces sign digits : List UInt8} {negative : Bool} (hspaces : Spaces spaces)
    (hsign : Sign sign negative) (hdigits : Numeral digits) (hlt : valueOf digits < 2 ^ w) :
    Reads (spaces ++ (sign ++ digits)) (signedValue w negative digits)

/-- What does not go on with such a byte. -/
def Stops (p : UInt8 → Bool) (s : List UInt8) : Prop := ∀ c ∈ s.head?, p c = false

variable {w : ℕ} {v v₀ : BitVec w} {c c₀ : UInt8} {s : Istream}
    {digits text rest l spaces : List UInt8}
  {p : UInt8 → Bool}

theorem spaces_nil : Spaces [] := fun _ hc ↦ absurd hc List.not_mem_nil

theorem stops_nil (p : UInt8 → Bool) : Stops p [] :=
  fun c hc ↦ absurd hc.symm (Option.some_ne_none c)

theorem stops_cons (hc : p c = false) : Stops p (c :: l) := by
  intro d hd
  obtain rfl : c = d := Option.some.inj hd
  exact hc

/-- What stops at a byte does not look behind it. -/
theorem stops_append_cons_iff : Stops p (l ++ c :: rest) ↔ Stops p (l ++ [c]) := by
  rw [Stops, Stops, List.head?_append, List.head?_append]
  rfl

/-- The bytes up to where it stops. -/
theorem takeWhile_append (hl : ∀ c ∈ l, p c = true) (hrest : Stops p rest) :
    (l ++ rest).takeWhile p = l ∧ (l ++ rest).dropWhile p = rest := by
  rw [List.takeWhile_append_of_pos hl, List.dropWhile_append_of_pos hl]
  match rest with
  | [] => exact ⟨List.append_nil l, rfl⟩
  | c :: rest =>
    have hc : p c = false := hrest c rfl
    rw [List.takeWhile_cons, List.dropWhile_cons, hc]
    exact ⟨List.append_nil l, rfl⟩

/-- What is left after the bytes that match stops them. -/
theorem stops_dropWhile (p : UInt8 → Bool) (l : List UInt8) : Stops p (l.dropWhile p) := by
  intro c hc
  have hhead := List.head?_dropWhile_not p l
  rw [Option.mem_def.1 hc] at hhead
  exact hhead

/-- Where a number was extracted there is a digit. -/
theorem Reads.ne_nil (h : Reads text v) : text ≠ [] := by
  obtain ⟨-, -, hdigits, -⟩ := h
  exact List.append_ne_nil_of_right_ne_nil _ (List.append_ne_nil_of_right_ne_nil _ hdigits.ne_nil)

/-- A numeral that is not too great is read as it is. -/
theorem Numeral.reads (h : Numeral digits) (hlt : valueOf digits < 2 ^ w) :
    Reads digits (.ofNat w (valueOf digits) : BitVec w) := by
  have hreads : Reads ([] ++ ([] ++ digits)) (signedValue w false digits) :=
    .intro spaces_nil .none h hlt
  exact hreads

theorem not_isSpace_of_isDigit (h : isDigit c = true) : isSpace c = false := by
  have hc : 48 ≤ c ∧ c ≤ 57 := of_decide_eq_true h
  refine decide_eq_false fun hspace ↦ ?_
  rcases hspace with rfl | ⟨-, hle⟩
  · exact absurd hc.1 (by decide)
  · exact absurd (UInt8.le_trans hc.1 hle) (by decide)

/-! ### The sentry

Before each extraction whitespace is skipped, which fails at the end of the stream.
-/

namespace Istream

/-- Whitespace is skipped up to a byte that is none. -/
theorem sentry_append (hspaces : Spaces spaces) (hc : isSpace c = false) :
    sentry { rest := spaces ++ c :: l } = { rest := c :: l } := by
  have hdrop : (spaces ++ c :: l).dropWhile isSpace = c :: l :=
    (takeWhile_append hspaces (stops_cons hc)).2
  show (if ((spaces ++ c :: l).dropWhile isSpace).isEmpty then _ else _) = _
  rw [hdrop]
  rfl

/-- What a stream is where the sentry does not fail. -/
theorem of_fail_sentry (h : s.sentry.fail = false) :
    ∃ spaces c l, Spaces spaces ∧ isSpace c = false ∧ s = { rest := spaces ++ c :: l } := by
  obtain ⟨rest, eof, fail⟩ := s
  rw [sentry] at h
  split_ifs at h with hgood
  dsimp only at h
  split_ifs at h with hempty
  have hflags : eof = false ∧ fail = false := by
    rw [good, Bool.and_eq_true, Bool.not_eq_true', Bool.not_eq_true'] at hgood
    exact hgood
  obtain ⟨rfl, rfl⟩ := hflags
  rcases hrest : rest.dropWhile isSpace with _ | ⟨c, l⟩
  · rw [hrest] at hempty
    exact absurd rfl hempty
  · have hc : isSpace c = false := stops_dropWhile isSpace rest c (hrest ▸ rfl)
    refine ⟨rest.takeWhile isSpace, c, l, fun _ hd ↦ List.mem_takeWhile_imp hd, hc, ?_⟩
    rw [← hrest, List.takeWhile_append_dropWhile]

/-! ### Characters

A character is the first byte behind the whitespace.
-/

theorem getChar_append (hspaces : Spaces spaces) (hc : isSpace c = false) :
    getChar c₀ { rest := spaces ++ c :: l } = (c, { rest := l }) := by
  rw [getChar, sentry_append hspaces hc]
  rfl

/-- Where a character was extracted, the sentry had not failed. -/
theorem fail_sentry_of_getChar (h : (getChar c₀ s).2.fail = false) : s.sentry.fail = false := by
  rw [getChar] at h
  split at h
  · exact h
  · split_ifs at h <;> exact h

/-- What a character was extracted from. -/
theorem getChar_sound (h : (getChar c₀ s).2.fail = false) :
    ∃ spaces c l, Spaces spaces ∧ isSpace c = false ∧ s = { rest := spaces ++ c :: l } ∧
      (getChar c₀ s).2 = { rest := l } := by
  obtain ⟨spaces, c, l, hspaces, hc, rfl⟩ := of_fail_sentry (fail_sentry_of_getChar h)
  exact ⟨spaces, c, l, hspaces, hc, rfl, by rw [getChar_append hspaces hc]⟩

/-! ### Numbers

A number is what `num_get` reads behind the whitespace: a sign and as many digits as there are.
-/

/-- Behind the whitespace the number begins. -/
theorem getUnsigned_append (hspaces : Spaces spaces) (hc : isSpace c = false) :
    getUnsigned v₀ { rest := spaces ++ c :: l } = numGet w (c :: l) := by
  rw [getUnsigned, sentry_append hspaces hc]
  rfl

theorem fail_sentry_of_getUnsigned (h : (getUnsigned v₀ s).2.fail = false) :
    s.sentry.fail = false := by
  rw [getUnsigned] at h
  split_ifs at h with hgood
  · rw [good, Bool.and_eq_true, Bool.not_eq_true', Bool.not_eq_true'] at hgood
    exact hgood.2
  · exact h

/-- The sign is taken off what begins with a digit. -/
theorem takeSign_append {sign : List UInt8} {negative : Bool} (hsign : Sign sign negative)
    (hl : ∀ c ∈ l.head?, isDigit c = true) : takeSign (sign ++ l) = (negative, l) := by
  match hsign with
  | .plus | .minus => rfl
  | .none =>
    match l with
    | [] => rfl
    | c :: l =>
      have hc : isDigit c = true := hl c rfl
      have hplus : c ≠ 43 := by
        rintro rfl
        exact absurd hc (by decide)
      have hminus : c ≠ 45 := by
        rintro rfl
        exact absurd hc (by decide)
      rw [List.nil_append, takeSign, if_neg hplus, if_neg hminus]

/-- Every text begins with a sign, which may be empty. -/
theorem exists_sign (l : List UInt8) : ∃ sign, Sign sign (takeSign l).1 ∧
    l = sign ++ (takeSign l).2 := by
  match l with
  | [] => exact ⟨[], .none, rfl⟩
  | c :: l =>
    rw [takeSign]
    split_ifs with hplus hminus
    · exact ⟨[43], .plus, hplus ▸ rfl⟩
    · exact ⟨[45], .minus, hminus ▸ rfl⟩
    · exact ⟨[], .none, rfl⟩

theorem head?_of_numeral (h : Numeral digits) : ∀ c ∈ (digits ++ rest).head?, isDigit c = true := by
  match digits, h with
  | [], h => exact absurd rfl h.ne_nil
  | d :: digits, h =>
    intro c hc
    obtain rfl : d = c := Option.some.inj hc
    exact h.isDigit d List.mem_cons_self

/-- A sign and a numeral do not begin with whitespace. -/
theorem exists_cons_of_sign {sign : List UInt8} {negative : Bool} (hsign : Sign sign negative)
    (hdigits : Numeral digits) : ∃ c l, sign ++ digits = c :: l ∧ isSpace c = false := by
  match hsign with
  | .plus | .minus => exact ⟨_, digits, rfl, by decide⟩
  | .none =>
    match digits, hdigits with
    | [], hdigits => exact absurd rfl hdigits.ne_nil
    | d :: digits, hdigits =>
      exact ⟨d, digits, rfl, not_isSpace_of_isDigit (hdigits.isDigit d List.mem_cons_self)⟩

/-- **A number is extracted** from a text of its form, if no digit follows. -/
theorem getUnsigned_of_reads (v₀ : BitVec w) (h : Reads text v) (hrest : Stops isDigit rest) :
    getUnsigned v₀ { rest := text ++ rest } = (v, { rest, eof := rest.isEmpty }) := by
  obtain @⟨spaces, sign, digits, negative, hspaces, hsign, hdigits, hlt⟩ := h
  obtain ⟨c, l, hcons, hc⟩ := exists_cons_of_sign hsign hdigits
  have hfirst : spaces ++ (sign ++ digits) ++ rest = spaces ++ c :: (l ++ rest) := by
    rw [List.append_assoc, hcons, List.cons_append]
  have hsplit : c :: (l ++ rest) = sign ++ (digits ++ rest) := by
    rw [← List.append_assoc, hcons, List.cons_append]
  obtain ⟨htake, hdrop⟩ := takeWhile_append hdigits.isDigit hrest
  have hne : ¬ digits.isEmpty = true := List.isEmpty_iff.not.2 hdigits.ne_nil
  rw [hfirst, getUnsigned_append hspaces hc, hsplit, numGet,
    takeSign_append hsign (head?_of_numeral hdigits)]
  dsimp only
  rw [htake, hdrop, if_neg hne, if_neg (Nat.not_le.2 hlt)]

/-- **A number is extracted from nothing else**, and as many digits as there are. -/
theorem getUnsigned_sound (h : (getUnsigned v₀ s).2.fail = false) :
    ∃ text rest, s = { rest := text ++ rest } ∧ Reads text (getUnsigned v₀ s).1 ∧
      Stops isDigit rest ∧
      (getUnsigned v₀ s).2 = { rest, eof := rest.isEmpty } := by
  obtain ⟨spaces, c, l, hspaces, hc, rfl⟩ := of_fail_sentry (fail_sentry_of_getUnsigned h)
  rw [getUnsigned_append hspaces hc] at h ⊢
  obtain ⟨sign, hsign, hsplit⟩ := exists_sign (c :: l)
  rw [numGet] at h ⊢
  split_ifs at h with hempty hle
  rw [if_neg hempty, if_neg hle]
  have hdigits : Numeral ((takeSign (c :: l)).2.takeWhile isDigit) :=
    ⟨List.isEmpty_iff.not.1 hempty, fun _ hd ↦ List.mem_takeWhile_imp hd⟩
  refine ⟨_, (takeSign (c :: l)).2.dropWhile isDigit, ?_,
    .intro hspaces hsign hdigits (Nat.not_le.1 hle), stops_dropWhile isDigit _, rfl⟩
  rw [List.append_assoc, List.append_assoc, List.takeWhile_append_dropWhile, ← hsplit]

end Istream

end TcpServer.FormattedInput
