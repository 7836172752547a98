import TcpServer.Lib.Endian
import TcpServer.Buffer.Contents

/-!
# Integers in a buffer

`writeInt` adds the first or the last bytes of the memory of an integer, and `peekInt` copies bytes
to the memory of an integer that is zero before. The host is little-endian, so `htole16` and the
like do nothing, and `htobe16` and the like reverse the bytes.

An integer of a type `T` is the bits that it has, whatever sign they stand for; `IntType.val` is the
number.

A number of bytes smaller than that of the type may be written and read. What is written are its low
bytes (`written_eq_inOrder`); what is read is the number of the bytes, with the bits above set to
the sign of the last of them (`decodeInt_eq`). The two are inverse where the number fits
(`Item.Fits`), and over whole sequences, since each integer takes as many bytes as it was written
with.
-/

namespace TcpServer.Buffer

open Endian

/-- The widths of the integer types. -/
inductive Width where
  | w8 | w16 | w32 | w64
  deriving DecidableEq, Repr

/-- `sizeof`. -/
def Width.size : Width → ℕ
  | .w8 => 1
  | .w16 => 2
  | .w32 => 4
  | .w64 => 8

/-- An integer type. -/
structure IntType where
  /-- How many bits it has. -/
  width : Width
  /-- Whether it has a sign. -/
  signed : Bool
  deriving DecidableEq, Repr

namespace IntType

/-- Its size in bytes. -/
def size (T : IntType) : ℕ := T.width.size

/-- Its size in bits. -/
abbrev bits (T : IntType) : ℕ := 8 * T.size

/-- The number that the bits stand for. -/
def val (T : IntType) (v : BitVec T.bits) : ℤ := if T.signed then v.toInt else v.toNat

/-- The bytes of an integer, as they are in memory. -/
def memory (T : IntType) (v : BitVec T.bits) : List (BitVec 8) := bytesOf T.size v.toNat

/-- The integer that is in memory. -/
def ofMemory (T : IntType) (bytes : List (BitVec 8)) : BitVec T.bits :=
  .ofNat T.bits (numberOf bytes)

end IntType

/-- `ByteOrder`. -/
inductive ByteOrder where
  | host | littleEndian | bigEndian
  deriving DecidableEq, Repr

/-- `htobe16`, `htobe32` and `htobe64`, and `be16toh` and so on. -/
def htobe (T : IntType) (v : BitVec T.bits) : BitVec T.bits := T.ofMemory (T.memory v).reverse

/-- `toEndianness`: only the big-endian order of more than one byte needs a reversal. -/
def toEndianness (order : ByteOrder) (T : IntType) (value : BitVec T.bits) : BitVec T.bits :=
  match order, T.width with
  | .host, _ => value
  | .littleEndian, _ => value
  | .bigEndian, .w8 => value
  | .bigEndian, _ => htobe T value

/-- `fromEndianness`. -/
def fromEndianness (order : ByteOrder) (T : IntType) (value : BitVec T.bits) : BitVec T.bits :=
  match order, T.width with
  | .host, _ => value
  | .littleEndian, _ => value
  | .bigEndian, .w8 => value
  | .bigEndian, _ => htobe T value

/-- Where the bytes of an integer of `size` bytes are in the memory of an integer of type `T`. -/
def displacement (order : ByteOrder) (T : IntType) (size : ℕ) : ℕ :=
  if order = .bigEndian then T.size - size else 0

/-- An `EnvoyException`. -/
structure EnvoyException where
  /-- What `what()` returns. -/
  message : String
  deriving DecidableEq, Repr

/-- What `peekInt` makes of the bytes that are copied out. The byte with the sign is looked for
where there is none if the integer has no bytes; what is read then is undefined. -/
def decodeInt (T : IntType) (order : ByteOrder) (size : ℕ) (copied : List (BitVec 8)) :
    Option (BitVec T.bits) :=
  let displacement := displacement order T size
  let bytes := Memory.overwrite displacement copied (List.replicate T.size 0)
  let result := T.ofMemory bytes
  let allBitsEnabled : BitVec T.bits := ~~~0
  let mostSignificantReadByte :=
    if order = .bigEndian then displacement else (UInt64.ofNat size - 1).toNat
  let signExtensionBits : Option (BitVec T.bits) :=
    if T.signed ∧ size < T.size then
      (bytes[mostSignificantReadByte]?).map fun byte ↦
        if byte.toInt < 0 then allBitsEnabled <<< (size % T.size * 8) else 0
    else some 0
  signExtensionBits.map fun bits ↦ fromEndianness order T result ||| bits

namespace OwnedImpl

/-- `peekInt`, whose check of the length has an empty body. -/
def peekInt (b : OwnedImpl (BitVec 8)) (T : IntType) (order : ByteOrder) (size : ℕ) (start : UInt64)
    (w : World (BitVec 8)) : Option (Except EnvoyException (BitVec T.bits)) :=
  -- Nothing is done where `length() < start + Size`: the call that would throw is commented out.
  (decodeInt T order size (b.copyOut start.toNat size w)).map .ok

/-- `drainInt`: the bytes are drained if an integer was read. -/
def drainInt (b : OwnedImpl (BitVec 8)) (T : IntType) (order : ByteOrder) (size : ℕ)
    (w : World (BitVec 8)) :
    Option (Except EnvoyException (BitVec T.bits) × OwnedImpl (BitVec 8) × World (BitVec 8)) :=
  (b.peekInt T order size 0 w).map fun
    | .error e => (.error e, b, w)
    | .ok result => (.ok result, b.drain size w)

/-- `writeInt`: some of the bytes of the integer in memory are added. -/
def writeInt (b : OwnedImpl (BitVec 8)) (T : IntType) (order : ByteOrder) (size : ℕ)
    (value : BitVec T.bits) (w : World (BitVec 8)) :
    Option (OwnedImpl (BitVec 8) × World (BitVec 8)) :=
  let data := toEndianness order T value
  b.add (((T.memory data).drop (displacement order T size)).take size) w

end OwnedImpl

/-! ### The bytes of an integer

Reversing the bytes of an integer and then taking some of them from the one end or the other is
taking the low bytes and then putting them in order. That is the form in which the bytes are used
from here on.
-/

variable {T : IntType} {order : ByteOrder} {size : ℕ}

theorem IntType.size_le (T : IntType) : T.size ≤ 8 := by
  have hall : ∀ width : Width, width.size ≤ 8 := by rintro (_ | _ | _ | _) <;> decide
  exact hall T.width

@[simp] theorem IntType.length_memory (v : BitVec T.bits) : (T.memory v).length = T.size :=
  length_bytesOf _ _

theorem pow_bits (n : ℕ) : 2 ^ (8 * n) = 256 ^ n := Nat.pow_mul 2 8 n

@[simp] theorem IntType.ofMemory_memory (v : BitVec T.bits) : T.ofMemory (T.memory v) = v := by
  refine BitVec.eq_of_toNat_eq ?_
  rw [ofMemory, memory, numberOf_bytesOf, BitVec.toNat_ofNat, ← pow_bits, Nat.mod_mod,
    Nat.mod_eq_of_lt v.isLt]

@[simp] theorem IntType.memory_ofMemory {bytes : List (BitVec 8)} (h : bytes.length = T.size) :
    T.memory (T.ofMemory bytes) = bytes := by
  rw [ofMemory, memory, BitVec.toNat_ofNat, pow_bits, bytesOf_mod, ← h, bytesOf_numberOf]

/-- Bytes in the order of the host. -/
def inOrder (order : ByteOrder) (bytes : List (BitVec 8)) : List (BitVec 8) :=
  if order = .bigEndian then bytes.reverse else bytes

@[simp] theorem length_inOrder (bytes : List (BitVec 8)) :
    (inOrder order bytes).length = bytes.length := by
  rw [inOrder]
  split_ifs
  · exact List.length_reverse
  · rfl

@[simp] theorem inOrder_inOrder (bytes : List (BitVec 8)) :
    inOrder order (inOrder order bytes) = bytes := by
  rw [inOrder, inOrder]
  split_ifs
  · exact List.reverse_reverse bytes
  · rfl

/-- A single byte is its own reverse. -/
theorem htobe_of_w8 (h : T.width = .w8) (v : BitVec T.bits) : htobe T v = v := by
  have hsize : T.size = 1 := by rw [IntType.size, h, Width.size]
  obtain ⟨byte, hbyte⟩ := List.length_eq_one_iff.1 ((IntType.length_memory v).trans hsize)
  have hsame := IntType.ofMemory_memory v
  rw [hbyte] at hsame
  rw [htobe, hbyte, List.reverse_singleton, hsame]

/-- The reversal is done for the big-endian order. -/
theorem toEndianness_eq (v : BitVec T.bits) :
    toEndianness order T v = if order = .bigEndian then htobe T v else v := by
  unfold toEndianness
  split
  · rfl
  · rfl
  · rename_i h
    exact (htobe_of_w8 h v).symm
  · rfl

theorem fromEndianness_eq (v : BitVec T.bits) :
    fromEndianness order T v = if order = .bigEndian then htobe T v else v :=
  toEndianness_eq v

/-- The bytes of an integer in memory, in the byte order asked for. -/
theorem memory_toEndianness (v : BitVec T.bits) :
    T.memory (toEndianness order T v) = inOrder order (T.memory v) := by
  rw [toEndianness_eq, inOrder]
  split_ifs
  · rw [htobe, IntType.memory_ofMemory]
    rw [List.length_reverse, IntType.length_memory]
  · rfl

/-- **Which bytes are written**: the low ones, in the byte order asked for. -/
theorem written_eq_inOrder (hsize : size ≤ T.size) (v : BitVec T.bits) :
    ((T.memory (toEndianness order T v)).drop (displacement order T size)).take size =
      inOrder order (bytesOf size v.toNat) := by
  rw [memory_toEndianness, inOrder, inOrder, displacement]
  split_ifs
  · have hlast : T.size - (T.size - size) = size := by omega
    rw [List.drop_reverse, IntType.length_memory, hlast, IntType.memory, take_bytesOf hsize]
    refine List.take_of_length_le ?_
    rw [List.length_reverse, length_bytesOf]
  · rw [List.drop_zero, IntType.memory, take_bytesOf hsize]

/-! ### The integer of the bytes

Copied bytes are put where the low bytes of an integer are, the rest of which is zero. For a type
with a sign the byte that has it is looked at, and ones are put above it.
-/

/-- The integer whose low `size` bytes are those of `x`, extended by its sign if it has one. -/
def extend (T : IntType) (size x : ℕ) : BitVec T.bits :=
  if T.signed then (BitVec.ofNat (8 * size) x).signExtend T.bits
  else (BitVec.ofNat (8 * size) x).setWidth T.bits

/-- The bytes that are copied stand where the integer has its low bytes, and the others are zero. -/
theorem fromEndianness_copied {copied : List (BitVec 8)} (hsize : size ≤ T.size)
    (hcopied : copied.length = size) :
    fromEndianness order T
        (T.ofMemory (Memory.overwrite (displacement order T size) copied
          (List.replicate T.size 0))) =
      .ofNat T.bits (numberOf (inOrder order copied)) := by
  rw [fromEndianness_eq, inOrder, displacement]
  split_ifs
  · have hbytes : Memory.overwrite (T.size - size) copied (List.replicate T.size 0) =
        List.replicate (T.size - size) 0 ++ copied := by
      have hrest : T.size - (T.size - size + copied.length) = 0 := by omega
      rw [Memory.overwrite, List.take_replicate, List.drop_replicate, hrest, List.replicate_zero,
        List.append_nil, Nat.min_eq_left (Nat.sub_le _ _)]
    have hlen : (List.replicate (T.size - size) (0 : BitVec 8) ++ copied).length = T.size := by
      rw [List.length_append, List.length_replicate]
      omega
    rw [hbytes, htobe, IntType.memory_ofMemory hlen, List.reverse_append, List.reverse_replicate,
      IntType.ofMemory, numberOf_append, numberOf_replicate_zero, Nat.mul_zero, Nat.add_zero]
  · rw [Memory.overwrite, List.take_zero, List.nil_append, List.drop_replicate, IntType.ofMemory,
      numberOf_append, numberOf_replicate_zero, Nat.mul_zero, Nat.add_zero]

theorem toNat_ofNat_sub_one (hpos : 0 < size) (hsize : size ≤ T.size) :
    (UInt64.ofNat size - 1).toNat = size - 1 := by
  have := T.size_le
  have hone : (1 : UInt64) = .ofNat 1 := rfl
  rw [hone, ← UInt64.ofNat_sub hpos, UInt64.toNat_ofNat', Nat.mod_eq_of_lt (by omega)]

/-- The byte that is looked at for the sign is the last one of the low bytes. -/
theorem getElem?_mostSignificant {copied : List (BitVec 8)} (hpos : 0 < size)
    (hsize : size ≤ T.size)
    (hcopied : copied.length = size) :
    (Memory.overwrite (displacement order T size) copied (List.replicate T.size 0))[
        if order = .bigEndian then displacement order T size else (UInt64.ofNat size - 1).toNat]? =
      some (.ofNat 8 (numberOf (inOrder order copied) / 256 ^ (size - 1))) := by
  have hlen : (inOrder order copied).length = size := by rw [length_inOrder, hcopied]
  have hlast : (inOrder order copied)[size - 1]? =
      some (.ofNat 8 (numberOf (inOrder order copied) / 256 ^ (size - 1))) := by
    have hself := bytesOf_numberOf (inOrder order copied)
    rw [hlen] at hself
    conv_lhs => rw [← hself]
    rw [List.getElem?_eq_getElem (by rw [length_bytesOf]; omega), getElem_bytesOf]
  rw [← hlast, inOrder, displacement]
  split_ifs
  · have hzeros : (List.replicate (T.size - size) (0 : BitVec 8)).length = T.size - size :=
      List.length_replicate
    rw [Memory.overwrite, List.take_replicate, Nat.min_eq_left (Nat.sub_le _ _), List.append_assoc,
      List.getElem?_append_right (by omega), hzeros, Nat.sub_self,
      List.getElem?_append_left (by omega), List.getElem?_reverse (by omega), hcopied]
    congr 1
    omega
  · rw [toNat_ofNat_sub_one hpos hsize, Memory.overwrite, List.take_zero, List.nil_append,
      List.getElem?_append_left (by omega)]

/-- The sign of the low bytes is the sign of the last one of them. -/
theorem msb_eq_toInt_lastByte (hpos : 0 < size) (x : ℕ) :
    (BitVec.ofNat (8 * size) x).msb =
      decide ((BitVec.ofNat 8 (x / 256 ^ (size - 1))).toInt < 0) := by
  have hbit : 7 + 8 * (size - 1) = 8 * size - 1 := by omega
  have hlast : 8 * size - 1 < 8 * size := by omega
  rw [← BitVec.msb_eq_toInt, BitVec.msb_eq_getLsbD_last, BitVec.msb_eq_getLsbD_last,
    BitVec.getLsbD_ofNat, BitVec.getLsbD_ofNat, ← pow_bits, Nat.testBit_div_two_pow, hbit,
    decide_eq_true hlast]
  rfl

/-- Setting the bits above the low bytes extends a negative integer. -/
theorem ofNat_or_eq_signExtend {x : ℕ} (hpos : 0 < size) (hsize : size < T.size)
    (hx : x < 256 ^ size) :
    BitVec.ofNat T.bits x |||
        (if (BitVec.ofNat 8 (x / 256 ^ (size - 1))).toInt < 0 then
          ~~~(0 : BitVec T.bits) <<< (size % T.size * 8) else 0) =
      (BitVec.ofNat (8 * size) x).signExtend T.bits := by
  have hsign := msb_eq_toInt_lastByte hpos x
  have hshift : size % T.size * 8 = 8 * size := by rw [Nat.mod_eq_of_lt hsize, Nat.mul_comm]
  rw [hshift]
  refine BitVec.eq_of_getLsbD_eq fun i hi ↦ ?_
  rw [BitVec.getLsbD_or, BitVec.getLsbD_signExtend, hsign, BitVec.getLsbD_ofNat,
    BitVec.getLsbD_ofNat, decide_eq_true hi, Bool.true_and, Bool.true_and]
  by_cases hlow : i < 8 * size
  · -- A bit of the low bytes.
    rw [if_pos hlow, decide_eq_true hlow, Bool.true_and]
    split_ifs with hneg
    · rw [BitVec.getLsbD_shiftLeft, decide_eq_true hlow]
      simp
    · simp
  · have hzero : x.testBit i = false := by
      refine Nat.testBit_lt_two_pow (Nat.lt_of_lt_of_le hx ?_)
      rw [← pow_bits]
      exact Nat.pow_le_pow_right Nat.two_pos (Nat.not_lt.1 hlow)
    rw [if_neg hlow, hzero, Bool.false_or]
    split_ifs with hneg
    · have hbit : i - 8 * size < T.bits := by omega
      rw [BitVec.getLsbD_shiftLeft, decide_eq_true hi, decide_eq_false hlow, BitVec.getLsbD_not,
        decide_eq_true hbit, decide_eq_true hneg]
      simp
    · rw [decide_eq_false hneg]
      simp

/-- **What is read**: the integer with these low bytes, extended. -/
theorem decodeInt_eq {copied : List (BitVec 8)} (hpos : 0 < size) (hsize : size ≤ T.size)
    (hcopied : copied.length = size) :
    decodeInt T order size copied = some (extend T size (numberOf (inOrder order copied))) := by
  have hx : numberOf (inOrder order copied) < 256 ^ size := by
    have := numberOf_lt (inOrder order copied)
    rwa [length_inOrder, hcopied] at this
  rw [decodeInt, getElem?_mostSignificant hpos hsize hcopied, fromEndianness_copied hsize hcopied,
    extend]
  generalize numberOf (inOrder order copied) = x at hx
  have hzeroExtend : BitVec.ofNat T.bits x = (BitVec.ofNat (8 * size) x).setWidth T.bits := by
    refine BitVec.eq_of_toNat_eq ?_
    rw [BitVec.toNat_setWidth, BitVec.toNat_ofNat, BitVec.toNat_ofNat, pow_bits size,
      Nat.mod_eq_of_lt hx]
  by_cases hsigned : T.signed
  · rw [if_pos hsigned]
    rcases Nat.lt_or_eq_of_le hsize with hlt | heq
    · rw [if_pos ⟨hsigned, hlt⟩, Option.map_some, Option.map_some,
        ofNat_or_eq_signExtend hpos hlt hx]
    · rw [if_neg fun h ↦ absurd h.2 (by omega), Option.map_some,
        BitVec.signExtend_eq_setWidth_of_le _ (by rw [heq]), hzeroExtend]
      exact congrArg some BitVec.or_zero
  · rw [if_neg hsigned, if_neg fun h ↦ hsigned h.1, Option.map_some, hzeroExtend]
    exact congrArg some BitVec.or_zero

/-- A value is read where fewer bytes are copied, too. -/
theorem exists_decodeInt (order : ByteOrder) {copied : List (BitVec 8)} (hpos : 0 < size)
    (hsize : size ≤ T.size) (hcopied : copied.length ≤ size) :
    ∃ v, decodeInt T order size copied = some v := by
  have hbytes : (Memory.overwrite (displacement order T size) copied
      (List.replicate T.size 0)).length = T.size := by
    rw [Memory.length_overwrite, List.length_replicate]
    rw [List.length_replicate, displacement]
    split_ifs <;> omega
  have hlt : (if order = .bigEndian then displacement order T size
      else (UInt64.ofNat size - 1).toNat) < T.size := by
    rw [toNat_ofNat_sub_one hpos hsize, displacement]
    split_ifs <;> omega
  rw [decodeInt, List.getElem?_eq_getElem (by rwa [hbytes])]
  split_ifs <;> exact ⟨_, rfl⟩

/-! ### Round trip

A list of integers with their encodings is written and then read with the same encodings. The step
is one integer, the run is by induction on the list.
-/

/-- How an integer is written: in which order, and how many of its bytes. -/
structure Encoding where
  /-- The type of the variable. -/
  type : IntType
  /-- The order of its bytes in the buffer. -/
  order : ByteOrder
  /-- How many bytes are written. -/
  size : ℕ
  /-- At least one is written. -/
  size_pos : 0 < size
  /-- No more are written than it has. -/
  size_le : size ≤ type.size

/-- An integer to be written. -/
structure Item extends Encoding where
  /-- The value of the variable. -/
  value : BitVec type.bits

namespace Item

/-- The number of the low bytes, extended by zeros, or by the sign if the type has one. -/
def lowBytes (item : Item) : ℤ :=
  if item.type.signed then (item.value.setWidth (8 * item.size)).toInt
  else (item.value.setWidth (8 * item.size)).toNat

/-- The value is a number of `size` bytes. -/
def Fits (item : Item) : Prop :=
  if item.type.signed then
    -2 ^ (8 * item.size) ≤ item.type.val item.value * 2 ∧
      item.type.val item.value * 2 < 2 ^ (8 * item.size)
  else item.type.val item.value < 2 ^ (8 * item.size)

/-- Nothing is lost of a number that fits. -/
theorem Fits.lowBytes_eq {item : Item} (h : item.Fits) :
    item.lowBytes = item.type.val item.value := by
  rw [Fits, IntType.val] at h
  rw [lowBytes, IntType.val]
  split_ifs at h ⊢ with hsigned
  · have hpow : ((2 ^ (8 * item.size) : ℕ) : ℤ) = 2 ^ (8 * item.size) := Int.natCast_pow 2 _
    have hdvd : 2 ^ (8 * item.size) ∣ 2 ^ item.type.bits :=
      Nat.pow_dvd_pow 2 (Nat.mul_le_mul_left 8 item.size_le)
    rw [BitVec.toInt_setWidth, ← Int.bmod_bmod_of_dvd hdvd, ← BitVec.toInt_eq_toNat_bmod]
    exact Int.bmod_eq_of_le_mul_two (by rw [hpow]; exact h.1) (by rw [hpow]; exact h.2)
  · have hlt : item.value.toNat < 2 ^ (8 * item.size) := by exact_mod_cast h
    rw [BitVec.toNat_setWidth, Nat.mod_eq_of_lt hlt]

/-- The bytes that are written for the value. -/
def bytes (item : Item) : List (BitVec 8) := inOrder item.order (bytesOf item.size item.value.toNat)

@[simp] theorem length_bytes (item : Item) : item.bytes.length = item.size := by
  rw [bytes, length_inOrder, length_bytesOf]

/-- The bytes of an item are read as its low bytes. -/
theorem decodeInt_bytes (item : Item) :
    ∃ v, decodeInt item.type item.order item.size item.bytes = some v ∧
      item.type.val v = item.lowBytes := by
  refine ⟨_, decodeInt_eq item.size_pos item.size_le item.length_bytes, ?_⟩
  have hlow : BitVec.ofNat (8 * item.size) (item.value.toNat % 256 ^ item.size) =
      item.value.setWidth (8 * item.size) := by
    refine BitVec.eq_of_toNat_eq ?_
    rw [BitVec.toNat_ofNat, BitVec.toNat_setWidth, ← pow_bits, Nat.mod_mod]
  have hwide : 8 * item.size ≤ item.type.bits := Nat.mul_le_mul_left 8 item.size_le
  rw [bytes, inOrder_inOrder, numberOf_bytesOf, extend, hlow, IntType.val, lowBytes]
  split_ifs
  · exact BitVec.toInt_signExtend_of_le hwide
  · rw [BitVec.toNat_setWidth, Nat.mod_eq_of_lt]
    exact Nat.lt_of_lt_of_le (BitVec.isLt _) (Nat.pow_le_pow_right Nat.two_pos hwide)

end Item

namespace OwnedImpl

variable {b : OwnedImpl (BitVec 8)} {w : World (BitVec 8)} {c : List (BitVec 8)}

/-- Writing an item adds its bytes. -/
theorem Holds.writeInt (hb : b.Holds w c) (item : Item) :
    ∃ b' w', b.writeInt item.type item.order item.size item.value w = some (b', w') ∧
      b'.Holds w' (c ++ item.bytes) := by
  have hlen := item.length_bytes
  have hsmall : item.size ≤ maxSliceSize := by
    have := Nat.le_trans item.size_le item.type.size_le
    rw [maxSliceSize]
    omega
  rw [OwnedImpl.writeInt, written_eq_inOrder item.size_le]
  exact hb.add (d := item.bytes) (by omega)

/-- Reading it takes them off again and gives their number. -/
theorem Holds.drainInt {item : Item} {rest : List (BitVec 8)}
    (hb : b.Holds w (item.bytes ++ rest)) :
    ∃ v b' w', b.drainInt item.type item.order item.size w = some (.ok v, b', w') ∧
      item.type.val v = item.lowBytes ∧ b'.Holds w' rest := by
  obtain ⟨v, hdecode, hval⟩ := item.decodeInt_bytes
  have hcopy : b.copyOut 0 item.size w = item.bytes := by
    rw [hb.copyOut_eq, List.drop_zero, List.take_left' item.length_bytes]
  have hdrain := hb.drain item.size
  rw [List.drop_left' item.length_bytes] at hdrain
  refine ⟨v, (b.drain item.size w).1, (b.drain item.size w).2, ?_, hval, hdrain⟩
  have hpeek : b.peekInt item.type item.order item.size 0 w = some (.ok v) := by
    rw [peekInt, UInt64.toNat_zero, hcopy, hdecode, Option.map_some]
  rw [OwnedImpl.drainInt, hpeek, Option.map_some]

/-- `writeInt`, for one integer after the other. -/
def writeInts : List Item → OwnedImpl (BitVec 8) → World (BitVec 8) →
    Option (OwnedImpl (BitVec 8) × World (BitVec 8))
  | [], b, w => some (b, w)
  | item :: items, b, w =>
    (b.writeInt item.type item.order item.size item.value w).bind fun (b, w) ↦ writeInts items b w

/-- `drainInt`, for one integer after the other, up to the first exception. -/
def drainInts : List Encoding → OwnedImpl (BitVec 8) → World (BitVec 8) →
    Option (List ℤ × OwnedImpl (BitVec 8) × World (BitVec 8))
  | [], b, w => some ([], b, w)
  | e :: encodings, b, w =>
    match b.drainInt e.type e.order e.size w with
    | some (.ok v, b, w) =>
      (drainInts encodings b w).map fun (values, rest) ↦ (e.type.val v :: values, rest)
    | some (.error _, _) => none
    | none => none

/-- Writing a list of items adds the bytes of all of them. -/
theorem Holds.writeInts (hb : b.Holds w c) (items : List Item) :
    ∃ b' w', OwnedImpl.writeInts items b w = some (b', w') ∧
      b'.Holds w' (c ++ items.flatMap Item.bytes) := by
  induction items generalizing b w c with
  | nil => exact ⟨b, w, rfl, by rwa [List.flatMap_nil, List.append_nil]⟩
  | cons item items ih =>
    obtain ⟨b₁, w₁, hwrite, hb₁⟩ := hb.writeInt item
    obtain ⟨b', w', hwrites, hb'⟩ := ih hb₁
    refine ⟨b', w', ?_, ?_⟩
    · rw [OwnedImpl.writeInts, hwrite, Option.bind_some]
      exact hwrites
    · rwa [List.flatMap_cons, ← List.append_assoc]

/-- Reading the list takes them off again, one item after the other. -/
theorem Holds.drainInts {items : List Item} {rest : List (BitVec 8)}
    (hb : b.Holds w (items.flatMap Item.bytes ++ rest)) :
    ∃ b' w', OwnedImpl.drainInts (items.map Item.toEncoding) b w =
        some (items.map Item.lowBytes, b', w') ∧ b'.Holds w' rest := by
  induction items generalizing b w with
  | nil => exact ⟨b, w, rfl, hb⟩
  | cons item items ih =>
    rw [List.flatMap_cons, List.append_assoc] at hb
    obtain ⟨v, b₁, w₁, hdrain, hval, hb₁⟩ := hb.drainInt
    obtain ⟨b', w', hdrains, hb'⟩ := ih hb₁
    refine ⟨b', w', ?_, hb'⟩
    rw [List.map_cons, List.map_cons, OwnedImpl.drainInts, hdrain]
    show (OwnedImpl.drainInts (items.map Item.toEncoding) b₁ w₁).map _ = _
    rw [hdrains, Option.map_some, hval]

/-- **Integers are read as they were written.** A buffer is drained, and integers are written to it.
Then exactly their bytes are in it; and whatever slices these bytes are in, and whatever follows
them, reading with the same types, byte orders and sizes gives the numbers of the low bytes, and
consumes these bytes. -/
theorem integers_round_trip (hb : b.Holds w c) {n : ℕ} (hn : c.length ≤ n) (items : List Item) :
    ∃ written b₁ w₁,
      OwnedImpl.writeInts items (b.drain n w).1 (b.drain n w).2 = some (b₁, w₁) ∧
      b₁.Holds w₁ written ∧ written.length = (items.map fun item ↦ item.size).sum ∧
      (∃ b₂ w₂, OwnedImpl.drainInts (items.map Item.toEncoding) b₁ w₁ =
        some (items.map Item.lowBytes, b₂, w₂) ∧ b₂.Holds w₂ []) ∧
      (∀ b₂ w₂ rest, OwnedImpl.Holds b₂ w₂ (written ++ rest) →
        ∃ b₃ w₃, OwnedImpl.drainInts (items.map Item.toEncoding) b₂ w₂ =
          some (items.map Item.lowBytes, b₃, w₃) ∧ b₃.Holds w₃ rest) ∧
      ∀ item ∈ items, item.Fits → item.lowBytes = item.type.val item.value := by
  have hdrained := hb.drain n
  rw [List.drop_eq_nil_of_le hn] at hdrained
  obtain ⟨b₁, w₁, hwrites, hb₁⟩ := hdrained.writeInts items
  rw [List.nil_append] at hb₁
  refine ⟨items.flatMap Item.bytes, b₁, w₁, hwrites, hb₁, ?_, ?_, ?_, ?_⟩
  · rw [List.length_flatMap]
    exact congrArg List.sum (List.map_congr_left fun item _ ↦ item.length_bytes)
  · have hall : b₁.Holds w₁ (items.flatMap Item.bytes ++ []) := by rwa [List.append_nil]
    exact hall.drainInts
  · intro b₂ w₂ rest hb₂
    exact hb₂.drainInts
  · intro item _ hfits
    exact hfits.lowBytes_eq

/-- Three bytes of a negative number, the most significant first, and one byte of a number that does
not fit. -/
def mixedItems : List Item :=
  [{ type := ⟨.w32, true⟩, order := .bigEndian, size := 3, size_pos := by decide,
      size_le := by decide, value := .ofInt 32 (-2) },
    { type := ⟨.w16, false⟩, order := .littleEndian, size := 1, size_pos := by decide,
      size_le := by decide, value := .ofNat 16 0x1234 }]

/-- A buffer with a byte in it. -/
def staleByte : OwnedImpl (BitVec 8) × World (BitVec 8) :=
  ({} : OwnedImpl (BitVec 8)).appendSliceForTest [7]
    { fragments := fun _ _ ↦ 0, fresh := fun _ _ ↦ 0 }

theorem holds_staleByte : staleByte.1.Holds staleByte.2 [7] :=
  (holds_empty _).appendSliceForTest (by rw [maxSliceSize]; decide)

/-- Of the first number the three bytes are enough, and of the second one byte is left. -/
theorem integers_round_trip_mixedItems :
    ∃ b₁ w₁ b₂ w₂, OwnedImpl.writeInts mixedItems (staleByte.1.drain 1 staleByte.2).1
        (staleByte.1.drain 1 staleByte.2).2 = some (b₁, w₁) ∧
      OwnedImpl.drainInts (mixedItems.map Item.toEncoding) b₁ w₁ = some ([-2, 0x34], b₂, w₂) ∧
      b₂.Holds w₂ [] := by
  have hvalues : mixedItems.map Item.lowBytes = [-2, 0x34] := by decide
  obtain ⟨written, b₁, w₁, hwrites, -, -, ⟨b₂, w₂, hdrains, hb₂⟩, -⟩ :=
    integers_round_trip holds_staleByte (Nat.le_refl 1) mixedItems
  rw [hvalues] at hdrains
  exact ⟨b₁, w₁, b₂, w₂, hwrites, hdrains, hb₂⟩

/-! ### Reading past the end

A read that is longer than the buffer copies what there is, and the bytes that are missing are zero.
So the documentation, which has an exception for it, holds of the reads that are not too long.
-/

/-- There is no exception, whatever is read. -/
theorem peekInt_ne_error (b : OwnedImpl (BitVec 8)) (w : World (BitVec 8)) (T : IntType)
    (order : ByteOrder) (size : ℕ) (start : UInt64) (e : EnvoyException) :
    b.peekInt T order size start w ≠ some (.error e) := by
  intro h
  rw [peekInt, Option.map_eq_some_iff] at h
  obtain ⟨v, -, ⟨⟩⟩ := h

/-- An integer that is read, where there are all its bytes and where there are not. -/
theorem exists_peekInt (hb : b.WF) (w : World (BitVec 8)) {T : IntType} (order : ByteOrder)
    {size : ℕ}
    (start : UInt64) (hpos : 0 < size) (hsize : size ≤ T.size) :
    ∃ v, b.peekInt T order size start w = some (.ok v) := by
  have hcopied : (b.copyOut start.toNat size w).length ≤ size := by
    rw [copyOut_eq hb]
    exact List.length_take_le _ _
  obtain ⟨v, hv⟩ := exists_decodeInt order hpos hsize hcopied
  exact ⟨v, by rw [peekInt, hv, Option.map_some]⟩

/-- Reading an integer of `size` bytes gives one only if there are as many bytes, counted from
`start` on, and else it is an underflow, by which the buffer does not change. -/
structure ReadsCleanly (b : OwnedImpl (BitVec 8)) (w : World (BitVec 8)) (T : IntType)
    (order : ByteOrder) (size : ℕ) (start : UInt64) : Prop where
  /-- What is peeked was all there. -/
  peek_only : ∀ v, b.peekInt T order size start w = some (.ok v) →
    start.toNat + size ≤ b.length.toNat
  /-- If it is all there, it is peeked. -/
  peek_returns : start.toNat + size ≤ b.length.toNat → 0 < size →
    ∃ v, b.peekInt T order size start w = some (.ok v)
  /-- If not, there is an exception. -/
  peek_underflow : b.length.toNat < start.toNat + size →
    b.peekInt T order size start w = some (.error ⟨"buffer underflow"⟩)
  /-- What is drained was all there. -/
  drain_only : ∀ v b' w', b.drainInt T order size w = some (.ok v, b', w') → size ≤ b.length.toNat
  /-- If it is all there, it is drained. -/
  drain_returns : size ≤ b.length.toNat → 0 < size →
    ∃ v, b.drainInt T order size w = some (.ok v, b.drain size w)
  /-- If not, there is an exception, and the buffer is as it was. -/
  drain_underflow : b.length.toNat < size →
    ∃ b' w', b.drainInt T order size w = some (.error ⟨"buffer underflow"⟩, b', w') ∧
      contentOf w' b'.slices.toList = contentOf w b.slices.toList ∧ b'.length = b.length

/-- **Reading past the end is not noticed**: an integer is read cleanly just where all its bytes are
in the buffer. -/
theorem readsCleanly_iff (hb : b.WF) (w : World (BitVec 8)) {T : IntType} (order : ByteOrder)
    {size : ℕ} (hsize : size ≤ T.size) (start : UInt64) :
    ReadsCleanly b w T order size start ↔ start.toNat + size ≤ b.length.toNat := by
  constructor
  · intro h
    by_contra hlt
    exact peekInt_ne_error _ _ _ _ _ _ _ (h.peek_underflow (Nat.not_le.1 hlt))
  · intro hle
    refine ⟨fun _ _ ↦ hle, ?_, ?_, ?_, ?_, ?_⟩
    · intro _ hpos
      exact exists_peekInt hb w order start hpos hsize
    · intro hlt
      exact absurd hle (Nat.not_le.2 hlt)
    · intro v b' w' _
      omega
    · intro _ hpos
      obtain ⟨v, hv⟩ := exists_peekInt hb w order 0 hpos hsize
      exact ⟨v, by rw [OwnedImpl.drainInt, hv, Option.map_some]⟩
    · intro hlt
      omega

/-- Its byte is read cleanly from offset 0, and not from the greatest offset there is. -/
theorem readsCleanly_iff_staleByte :
    ReadsCleanly staleByte.1 staleByte.2 ⟨.w32, true⟩ .bigEndian 1 0 ∧
      ¬ ReadsCleanly staleByte.1 staleByte.2 ⟨.w32, true⟩ .bigEndian 1 0xFFFFFFFFFFFFFFFF := by
  have hb := holds_staleByte.wf
  have hlength : staleByte.1.length.toNat = 1 := by decide
  refine ⟨(readsCleanly_iff hb _ .bigEndian (by decide) 0).2 ?_, fun h ↦ ?_⟩
  · rw [hlength]
    decide
  · have := (readsCleanly_iff hb _ .bigEndian (by decide) _).1 h
    rw [hlength] at this
    exact absurd this (by decide)

/-- Four bytes of an empty buffer. -/
theorem empty_read_not_clean :
    ¬ ReadsCleanly {} { fragments := fun _ _ ↦ 0, fresh := fun _ _ ↦ 0 } ⟨.w32, false⟩ .host 4
      0 := by
  intro h
  have hvalue : ({} : OwnedImpl (BitVec 8)).peekInt ⟨.w32, false⟩ .host 4 0
      { fragments := fun _ _ ↦ 0, fresh := fun _ _ ↦ 0 } = some (.ok 0) := by decide
  exact absurd (h.peek_only 0 hvalue) (by decide)

end OwnedImpl

end TcpServer.Buffer
