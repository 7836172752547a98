import Mathlib.Algebra.Ring.Nat
import Mathlib.Data.List.Basic
import Mathlib.Tactic.Common

/-!
# Integers as byte strings

`bytesOf n x` is the memory of an integer `x` of `n` bytes on a little-endian machine, and
`numberOf` reads it back. Both are about natural numbers, so that an integer of any width is
covered. Reading back gives the number modulo `256 ^ n` (`numberOf_bytesOf`), and the first bytes
are the memory of a narrower integer (`take_bytesOf`).

The lists of bytes know nothing of a width, so a narrower integer, a sum of shifted bytes or a copy
of a part of the memory are all lists. The width comes back in where a number is cut off: modulo a
power of 256, or by a mask (`toNat_and_mask`).
-/

namespace TcpServer.Endian

/-- The `n` bytes of `x`, the least significant first. -/
def bytesOf : ℕ → ℕ → List (BitVec 8)
  | 0, _ => []
  | n + 1, x => .ofNat 8 x :: bytesOf n (x / 256)

/-- The number with these bytes, the least significant first. -/
def numberOf : List (BitVec 8) → ℕ
  | [] => 0
  | b :: bytes => b.toNat + 256 * numberOf bytes

@[simp] theorem length_bytesOf (n x : ℕ) : (bytesOf n x).length = n := by
  induction n generalizing x with
  | zero => rfl
  | succ n ih => rw [bytesOf, List.length_cons, ih]

@[simp] theorem numberOf_bytesOf (n x : ℕ) : numberOf (bytesOf n x) = x % 256 ^ n := by
  induction n generalizing x with
  | zero => rw [Nat.pow_zero, Nat.mod_one, bytesOf, numberOf]
  | succ n ih =>
    have hbyte : (2 : ℕ) ^ 8 = 256 := rfl
    rw [bytesOf, numberOf, ih, BitVec.toNat_ofNat, hbyte, Nat.pow_succ', Nat.mod_mul]

/-- A number has no more bytes than it was made of. -/
theorem numberOf_lt (bytes : List (BitVec 8)) : numberOf bytes < 256 ^ bytes.length := by
  induction bytes with
  | nil => exact Nat.zero_lt_one
  | cons b bytes ih =>
    have hb := b.isLt
    rw [numberOf, List.length_cons, Nat.pow_succ']
    omega

/-- A list of bytes is the memory of its number. -/
@[simp] theorem bytesOf_numberOf (bytes : List (BitVec 8)) :
    bytesOf bytes.length (numberOf bytes) = bytes := by
  induction bytes with
  | nil => rfl
  | cons b bytes ih =>
    have hb := b.isLt
    have hhead : BitVec.ofNat 8 (b.toNat + 256 * numberOf bytes) = b := by
      refine BitVec.eq_of_toNat_eq ?_
      rw [BitVec.toNat_ofNat]
      omega
    have htail : (b.toNat + 256 * numberOf bytes) / 256 = numberOf bytes := by omega
    rw [List.length_cons, numberOf, bytesOf, hhead, htail, ih]

/-- The first bytes are those of a narrower integer. -/
theorem take_bytesOf {m n : ℕ} (h : m ≤ n) (x : ℕ) : (bytesOf n x).take m = bytesOf m x := by
  induction m generalizing n x with
  | zero => rfl
  | succ m ih =>
    obtain ⟨n, rfl⟩ := Nat.exists_eq_add_of_le' (Nat.lt_of_lt_of_le m.succ_pos h)
    rw [bytesOf, bytesOf, List.take_succ_cons, ih (by omega)]

/-- The higher bytes do not count. -/
theorem bytesOf_mod (n x : ℕ) : bytesOf n (x % 256 ^ n) = bytesOf n x := by
  have h := bytesOf_numberOf (bytesOf n x)
  rwa [length_bytesOf, numberOf_bytesOf] at h

/-- The bytes behind others count more. -/
theorem numberOf_append (xs ys : List (BitVec 8)) :
    numberOf (xs ++ ys) = numberOf xs + 256 ^ xs.length * numberOf ys := by
  induction xs with
  | nil => rw [List.nil_append, numberOf, List.length_nil, Nat.pow_zero, Nat.one_mul, Nat.zero_add]
  | cons x xs ih =>
    rw [List.cons_append, numberOf, numberOf, ih, List.length_cons, Nat.pow_succ', Nat.mul_add,
      Nat.mul_assoc, Nat.add_assoc]

@[simp] theorem numberOf_replicate_zero (n : ℕ) : numberOf (List.replicate n 0) = 0 := by
  induction n with
  | zero => rfl
  | succ n ih => rw [List.replicate_succ, numberOf, ih]; rfl

/-- A byte of a number is a digit to the base 256. -/
theorem getElem_bytesOf {n x i : ℕ} (h : i < (bytesOf n x).length) :
    (bytesOf n x)[i] = .ofNat 8 (x / 256 ^ i) := by
  induction n generalizing x i with
  | zero => exact absurd h (Nat.not_lt_zero i)
  | succ n ih =>
    cases i with
    | zero => simp [bytesOf]
    | succ i => simp [bytesOf, ih, Nat.div_div_eq_div_mul, Nat.pow_succ']

/-- A mask of low bits is a remainder. -/
theorem toNat_and_mask {w k : ℕ} (x : BitVec w) {mask : BitVec w} (h : mask.toNat = 2 ^ k - 1) :
    (x &&& mask).toNat = x.toNat % 2 ^ k := by
  rw [BitVec.toNat_and, h, Nat.and_two_pow_sub_one_eq_mod]

end TcpServer.Endian
