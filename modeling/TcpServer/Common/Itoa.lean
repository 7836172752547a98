import TcpServer.Lib.InPlace
import TcpServer.Lib.Numerals

/-!
# `StringUtil::itoa`

The digits of a 64-bit number are written from the last one on and reversed in place. The memory
behind `out` is a list, and what reaches beyond it has no result. The digit loop writes the numeral
the wrong way round (`writeDigits_append`), the second loop is the one of `InPlace`.

A numeral of a 64-bit number has at most 20 digits (`length_toDigits_le_twenty`), which is why the
function wants 21 characters, and with so many it writes neither before nor behind them
(`itoa_exact`). The bound that is checked is the size that the caller states; the memory is as long
as it is, so a caller that states too much is a case of its own, in which a write may have no
result.
-/

namespace TcpServer.Itoa

open InPlace Numerals

/-- The characters that a digit is looked up in. -/
def digits : List Char := "0123456789".toList

/-- How a call ends, and the memory behind `out` then. -/
inductive Outcome
  | threw (what : List Char) (out : List Char)
  | returned (size : BitVec 32) (out : List Char)
deriving DecidableEq

/-- The `do` loop, with the index of `current` in the memory. -/
def writeDigits (i current : ℕ) (out : List Char) : Option (ℕ × List Char) := do
  let c ← digits[i % 10]?
  let out ← write current c out
  if i / 10 > 0 then writeDigits (i / 10) (current + 1) out else some (current + 1, out)
termination_by i
decreasing_by omega

/-- `itoa`: the check of the size, the digits, their reversal, and the NUL behind them. -/
def itoa (out : List Char) (bufferSize : ℕ) (i : BitVec 64) : Option Outcome :=
  if bufferSize < 21 then some (.threw "itoa buffer too small".toList out)
  else do
    let s ← writeDigits i.toNat 0 out
    let out ← reverseLoop 0 (s.1 - 1) s.2
    let out ← write s.1 (.ofNat 0) out
    some (.returned (.ofNat 32 s.1) out)

/-- The table has the digits at their values. -/
theorem getElem?_digits {d : ℕ} (hd : d < 10) : digits[d]? = some d.digitChar := by
  have hall : ∀ d < 10, digits[d]? = some d.digitChar := by decide
  exact hall d hd

/-- The digit loop overwrites as many characters as the number has digits. -/
theorem writeDigits_append {i current : ℕ} {pre old post : List Char}
    (hcurrent : current = pre.length)
    (hold : old.length = (Nat.toDigits 10 i).length) :
    writeDigits i current (pre ++ (old ++ post)) =
      some (pre.length + old.length, pre ++ ((Nat.toDigits 10 i).reverse ++ post)) := by
  induction i using Nat.strongRecOn generalizing pre old current with
  | ind i ih =>
    match old, hold with
    | [], hold => exact absurd (List.eq_nil_of_length_eq_zero hold.symm) Nat.toDigits_ne_nil
    | x :: old, hold =>
      rw [List.cons_append, writeDigits, getElem?_digits (Nat.mod_lt _ (by decide)),
        Option.bind_eq_bind, Option.bind_some, write_append hcurrent, Option.bind_eq_bind,
        Option.bind_some, hcurrent]
      by_cases hmore : i / 10 > 0
      · have hsplit : Nat.toDigits 10 i = Nat.toDigits 10 (i / 10) ++ [(i % 10).digitChar] :=
          Nat.toDigits_of_base_le (by decide) (by omega)
        have hlen : old.length = (Nat.toDigits 10 (i / 10)).length := by
          rw [hsplit, List.length_append, List.length_singleton, List.length_cons] at hold
          omega
        have hassoc (xs : List Char) : pre ++ (i % 10).digitChar :: xs =
            (pre ++ [(i % 10).digitChar]) ++ xs := by
          simp
        rw [if_pos hmore, hassoc, ih (i / 10) (by omega) (by simp) hlen, hsplit]
        simp
        omega
      · have hdigit : Nat.toDigits 10 i = [(i % 10).digitChar] := by
          rw [Nat.toDigits_of_lt_base (by omega), Nat.mod_eq_of_lt (by omega)]
        rw [hdigit, List.length_singleton, List.length_cons] at hold
        rw [if_neg hmore, hdigit, List.eq_nil_of_length_eq_zero (Nat.succ.inj hold)]
        rfl

/-- No 64-bit number has more than 20 digits. -/
theorem length_toDigits_le_twenty (i : BitVec 64) : (Nat.toDigits 10 i.toNat).length ≤ 20 := by
  have hlt := i.isLt
  exact length_toDigits_le (by decide) (by decide) (by omega)

/-- What a call with enough room writes: the numeral and a NUL, and the rest of the memory is as it
was. -/
theorem itoa_eq {out : List Char} {bufferSize : ℕ} (i : BitVec 64) (hsize : 21 ≤ bufferSize)
    (hout : 21 ≤ out.length) :
    itoa out bufferSize i =
      some (.returned (.ofNat 32 (Nat.toDigits 10 i.toNat).length)
        (Nat.toDigits 10 i.toNat ++ .ofNat 0 :: out.drop
          ((Nat.toDigits 10 i.toNat).length + 1))) := by
  have hlen := length_toDigits_le_twenty i
  have hpos : 0 < (Nat.toDigits 10 i.toNat).length := Nat.length_toDigits_pos
  generalize htext : Nat.toDigits 10 i.toNat = text at hlen hpos ⊢
  have hold : (out.take text.length).length = text.length := by
    rw [List.length_take]
    omega
  have hsplit : out = [] ++ (out.take text.length ++ out.drop text.length) := by
    rw [List.nil_append, List.take_append_drop]
  have hdrop : out.drop text.length = out[text.length] :: out.drop (text.length + 1) :=
    List.drop_eq_getElem_cons (by omega)
  have hdigits : writeDigits i.toNat 0 out =
      some (text.length, [] ++ (text.reverse ++ out.drop text.length)) := by
    conv_lhs => rw [hsplit]
    rw [writeDigits_append List.length_nil.symm (by rw [htext, hold]), htext, hold, List.length_nil,
      Nat.zero_add]
  have hreverse : reverseLoop 0 (text.length - 1) ([] ++ (text.reverse ++ out.drop text.length)) =
      some ([] ++ (text ++ out.drop text.length)) := by
    have hend : text.length - 1 + 1 = ([] : List Char).length + text.reverse.length := by
      rw [List.length_reverse, List.length_nil]
      omega
    rw [reverseLoop_append text.reverse List.length_nil.symm hend, List.reverse_reverse]
  have hnul : write text.length (.ofNat 0) ([] ++ (text ++ out.drop text.length)) =
      some (text ++ .ofNat 0 :: out.drop (text.length + 1)) := by
    rw [hdrop, List.nil_append, write_append rfl]
  rw [itoa, if_neg (by omega), hdigits, Option.bind_eq_bind, Option.bind_some, hreverse,
    Option.bind_eq_bind, Option.bind_some, hnul, Option.bind_some]

/-- For every number the memory gets its numeral and a NUL, which is at most 21 characters, and
keeps all that is behind them. Nothing is accessed beyond the first 21 characters, since the memory
may end there. With a smaller size nothing is written. -/
theorem itoa_exact (out : List Char) (bufferSize : ℕ) (i : BitVec 64) :
    (bufferSize < 21 → itoa out bufferSize i = some (.threw "itoa buffer too small".toList out)) ∧
      (21 ≤ bufferSize → 21 ≤ out.length →
        ∃ (text : List Char) (size : BitVec 32), IsNumeral text ∧
          Nat.ofDigitChars 10 text 0 = i.toNat ∧
          text.length ≤ 20 ∧ size.toNat = text.length ∧
          itoa out bufferSize i =
            some (.returned size (text ++ .ofNat 0 :: out.drop (text.length + 1)))) := by
  refine ⟨fun h ↦ if_pos h, fun hsize hout ↦ ?_⟩
  have hlen := length_toDigits_le_twenty i
  refine ⟨Nat.toDigits 10 i.toNat, .ofNat 32 (Nat.toDigits 10 i.toNat).length, isNumeral_toDigits _,
    Nat.ofDigitChars_ten_toDigits, hlen, ?_, itoa_eq i hsize hout⟩
  rw [BitVec.toNat_ofNat]
  omega

/-- The largest number, in exactly as much room as is asked for. -/
theorem itoa_maxUint64 :
    ∃ (text : List Char) (size : BitVec 32), IsNumeral text ∧
      Nat.ofDigitChars 10 text 0 = (BitVec.allOnes 64).toNat ∧ text.length ≤ 20 ∧
        size.toNat = text.length ∧
      itoa (List.replicate 21 ' ') 21 (.allOnes 64) =
        some (.returned size (text ++ .ofNat 0 ::
          (List.replicate 21 ' ').drop (text.length + 1))) :=
  (itoa_exact (List.replicate 21 ' ') 21 (.allOnes 64)).2 (by decide) (by decide)

end TcpServer.Itoa
