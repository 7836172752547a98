import TcpServer.Lib.Endian

/-!
# The byte order of IPv6 addresses

`flipOrder` takes the bytes of a 128-bit number off its low end and puts each one behind the bytes
that it has already. In terms of the memory of the two numbers (`Endian.bytesOf`) a round of the
loop moves a byte from the front of the one to the front of the other (`flipLoop_eq`), so that the
whole loop reverses the bytes (`bytesOf_flipOrder`).

The conversions between network and host order are the reversal on a little-endian host and nothing
on any other, so they are inverse to each other on both. Which one the host is has no influence on
the loop, which computes with numbers and not with memory.
-/

namespace TcpServer.Network.FlipOrder

open Endian

/-- The `for` loop with `i` rounds to go. -/
def flipLoop : ℕ → BitVec 128 → BitVec 128 → BitVec 128
  | 0, result, _ => result
  | i + 1, result, data => flipLoop i ((result <<< 8) ||| (data &&& 0xff)) (data >>> 8)

/-- `Utility::flipOrder`. -/
def flipOrder (input : BitVec 128) : BitVec 128 := flipLoop 16 0 input

/-- With `ABSL_IS_LITTLE_ENDIAN` as a parameter. -/
def ip6ntohl (littleEndian : Bool) (address : BitVec 128) : BitVec 128 :=
  if littleEndian then flipOrder address else address

/-- `ip6htonl`. -/
def ip6htonl (littleEndian : Bool) (address : BitVec 128) : BitVec 128 :=
  if littleEndian then flipOrder address else address

/-- Byte `i` of a number, counted from the low end. -/
def byte (x : BitVec 128) (i : ℕ) : BitVec 8 := x.extractLsb' (8 * i) 8

variable {result data : BitVec 128}

/-- A round takes the low byte of `data` over. -/
theorem toNat_shiftLeft_or {b : BitVec 8} {bytes taken : List (BitVec 8)}
    (hdata : data.toNat = numberOf (b :: bytes)) (hresult : result.toNat = numberOf taken)
    (hlen : taken.length < 16) :
    ((result <<< 8) ||| (data &&& 0xff)).toNat = numberOf (b :: taken) ∧
      (data >>> 8).toNat = numberOf bytes := by
  have hb := b.isLt
  have hnumber : data.toNat = b.toNat + 256 * numberOf bytes := hdata
  have hlow : (data &&& 0xff).toNat = b.toNat := by
    rw [toNat_and_mask (k := 8) data rfl]
    omega
  have hbound : result.toNat < 256 ^ 15 := by
    rw [hresult]
    exact Nat.lt_of_lt_of_le (numberOf_lt taken) (Nat.pow_le_pow_right (by decide) (by omega))
  have hhigh : (result <<< 8).toNat = result.toNat <<< 8 := by
    rw [BitVec.toNat_shiftLeft]
    refine Nat.mod_eq_of_lt ?_
    rw [Nat.shiftLeft_eq]
    omega
  constructor
  · rw [BitVec.toNat_or, hlow, hhigh, ← Nat.shiftLeft_add_eq_or_of_lt hb, Nat.shiftLeft_eq, hresult,
      numberOf, Nat.add_comm, Nat.mul_comm]
  · rw [BitVec.toNat_ushiftRight, Nat.shiftRight_eq_div_pow]
    omega

theorem flipLoop_eq {bytes taken : List (BitVec 8)} (hdata : data.toNat = numberOf bytes)
    (hresult : result.toNat = numberOf taken) (hlen : taken.length + bytes.length ≤ 16) :
    (flipLoop bytes.length result data).toNat = numberOf (bytes.reverse ++ taken) := by
  induction bytes generalizing result data taken with
  | nil => exact hresult
  | cons b bytes ih =>
    rw [List.length_cons] at hlen
    obtain ⟨hresult', hdata'⟩ := toNat_shiftLeft_or hdata hresult (by omega)
    rw [List.length_cons, flipLoop, ih hdata' hresult' (by rw [List.length_cons]; omega),
      List.reverse_cons, List.append_assoc]
    rfl

/-- The bytes of the result are those of the number, reversed. -/
theorem bytesOf_flipOrder (x : BitVec 128) :
    bytesOf 16 (flipOrder x).toNat = (bytesOf 16 x.toNat).reverse := by
  have hx : x.toNat = numberOf (bytesOf 16 x.toNat) := by
    rw [numberOf_bytesOf]
    exact (Nat.mod_eq_of_lt x.isLt).symm
  have hflip : (flipOrder x).toNat = numberOf (bytesOf 16 x.toNat).reverse := by
    have h : (flipLoop (bytesOf 16 x.toNat).length 0 x).toNat =
        numberOf ((bytesOf 16 x.toNat).reverse ++ []) := flipLoop_eq hx rfl (by simp)
    rw [length_bytesOf, List.append_nil] at h
    exact h
  have hlen : (bytesOf 16 x.toNat).reverse.length =
      16 := by rw [List.length_reverse, length_bytesOf]
  have h := bytesOf_numberOf (bytesOf 16 x.toNat).reverse
  rwa [hlen, ← hflip] at h

theorem getElem?_bytesOf_toNat (x : BitVec 128) {i : ℕ} (hi : i < 16) :
    (bytesOf 16 x.toNat)[i]? = some (byte x i) := by
  have hlen : i < (bytesOf 16 x.toNat).length := by rwa [length_bytesOf]
  rw [List.getElem?_eq_getElem hlen, getElem_bytesOf, byte]
  refine congrArg some (BitVec.eq_of_toNat_eq ?_)
  rw [BitVec.extractLsb'_toNat, Nat.shiftRight_eq_div_pow, Nat.pow_mul]
  rfl

/-- Byte by byte, counted from either end. -/
theorem byte_flipOrder (x : BitVec 128) {i : ℕ} (hi : i < 16) :
    byte (flipOrder x) i = byte x (15 - i) := by
  have hlen : i < (bytesOf 16 x.toNat).length := by rwa [length_bytesOf]
  have hindex : (bytesOf 16 x.toNat).length - 1 - i = 15 - i := by rw [length_bytesOf]
  refine Option.some_inj.1 ?_
  rw [← getElem?_bytesOf_toNat _ hi, bytesOf_flipOrder, List.getElem?_reverse hlen, hindex,
    getElem?_bytesOf_toNat _ (by omega)]

/-- Reversing twice gives the number back. -/
theorem flipOrder_flipOrder (x : BitVec 128) : flipOrder (flipOrder x) = x := by
  have hbytes : bytesOf 16 (flipOrder (flipOrder x)).toNat = bytesOf 16 x.toNat := by
    rw [bytesOf_flipOrder, bytesOf_flipOrder, List.reverse_reverse]
  have hnumber := congrArg numberOf hbytes
  rw [numberOf_bytesOf, numberOf_bytesOf] at hnumber
  refine BitVec.eq_of_toNat_eq ?_
  have hx := x.isLt
  have hflip := (flipOrder (flipOrder x)).isLt
  omega

/-- For every 128-bit number `flipOrder` puts byte `i` where byte `15 - i` was, it is its own
inverse, and the conversions between the byte orders are inverse to each other on a machine of
either byte order. -/
theorem flipOrder_reverses (x : BitVec 128) :
    (∀ i < 16, byte (flipOrder x) i = byte x (15 - i)) ∧ flipOrder (flipOrder x) = x ∧
      ∀ littleEndian, ip6ntohl littleEndian (ip6htonl littleEndian x) = x ∧
        ip6htonl littleEndian (ip6ntohl littleEndian x) = x := by
  refine ⟨fun i hi ↦ byte_flipOrder x hi, flipOrder_flipOrder x, fun littleEndian ↦ ?_⟩
  match littleEndian with
  | true => exact ⟨flipOrder_flipOrder x, flipOrder_flipOrder x⟩
  | false => exact ⟨rfl, rfl⟩

end TcpServer.Network.FlipOrder
