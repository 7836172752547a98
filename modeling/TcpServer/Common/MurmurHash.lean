import TcpServer.Lib.Endian

/-!
# MurmurHash

`murmurHash2` reads a key in blocks of eight bytes up to a pointer `end` and mixes the last few
bytes in. The distance of `end` from the beginning goes through an `int`. For keys of fewer than `2
^ 31` bytes the function is the 64-bit MurmurHash2 of the key (`murmurHash2_eq`); for any other key
it reads other blocks than those of the key, or leaves the key (`exact_iff`).

A run records what it reads, the blocks and the bytes behind them, so that being exact is more than
having the right hash: `Run.Exact` says of which bytes it was computed. The reference is written
over lists of bytes and knows no offsets.

With a block count that is wrong the main loop compares pointers for inequality and goes past `end`,
so it does not come to rest within the key; the model gives it fuel, and the theorems say that no
fuel is enough.
-/

namespace TcpServer.MurmurHash

open Endian

/-- An `absl::string_view`: its size is a `size_t`. -/
structure StringView where
  /-- The bytes of the key. -/
  data : List (BitVec 8)
  /-- Their number is a `size_t`. -/
  size_lt : data.length < 2 ^ 64

/-- The multiplier. -/
def mul : BitVec 64 := 0xc6a4a7935bd1e995

/-- `shift_mix`. -/
def shiftMix (v : BitVec 64) : BitVec 64 := v ^^^ (v >>> 47)

/-- The eight bytes from `p` on as an integer, if they are all bytes of the key. -/
def unalignedLoad (key : List (BitVec 8)) (p : ℕ) : Option (BitVec 64) :=
  if p + 8 ≤ key.length then some (.ofNat 64 (numberOf ((key.drop p).take 8))) else none

/-- The loop of `loadBytes` with its counter at `n`, which counts down to 0, and the offsets it
reads. -/
def loadBytesLoop (key : List (BitVec 8)) (p : ℕ) : ℕ → BitVec 64 → Option (BitVec 64 × List ℕ)
  | 0, result => do
    let byte ← key[p]?
    return ((result <<< 8) + byte.setWidth 64, [p])
  | n + 1, result => do
    let byte ← key[p + (n + 1)]?
    let (result, offsets) ← loadBytesLoop key p n ((result <<< 8) + byte.setWidth 64)
    return (result, (p + (n + 1)) :: offsets)

/-- A pointer below the key has no bytes behind it. -/
def loadBytes (key : List (BitVec 8)) (p : ℤ) (n : ℕ) : Option (BitVec 64 × List ℕ) :=
  if 0 ≤ p then loadBytesLoop key p.toNat (n - 1) 0 else none

/-- `const int len_aligned = len & ~0x7`: the lower half of the 64-bit value, with its sign. -/
def lenAligned (len : BitVec 64) : ℤ := ((len &&& ~~~7).setWidth 32).toInt

/-- The main loop from offset `p` on; `stop` is the offset of `end`. A read that leaves the key has
no result, and neither has a loop with too few iterations. -/
def blockLoop (key : List (BitVec 8)) (stop : ℤ) : ℕ → ℕ → BitVec 64 → Option (BitVec 64 × List ℕ)
  | 0, _, _ => none
  | fuel + 1, p, hash =>
    if (p : ℤ) ≠ stop then do
      let word ← unalignedLoad key p
      let data := shiftMix (word * mul) * mul
      let (hash, offsets) ← blockLoop key stop fuel (p + 8) ((hash ^^^ data) * mul)
      return (hash, p :: offsets)
    else some (hash, [])

/-- The hash, the offsets of the blocks that were read, and those of the bytes read behind them. -/
structure Run where
  /-- What the function returns. -/
  hash : BitVec 64
  /-- The offsets of the blocks, in the order of reading. -/
  blocks : List ℕ
  /-- The offsets of the last bytes, in the order of reading. -/
  tail : List ℕ

/-- The bytes behind the blocks, if there are any. -/
def mixRest (key : List (BitVec 8)) (len : BitVec 64) (stop : ℤ) (hash : BitVec 64) :
    Option (BitVec 64 × List ℕ) :=
  if len &&& 7 ≠ 0 then
    (loadBytes key stop (len &&& 7).toNat).map fun (data, tail) ↦ ((hash ^^^ data) * mul, tail)
  else some (hash, [])

/-- `murmurHash2`: the blocks up to `end`, the bytes behind them, and the last two mixes. The fuel
is for the iterations of the main loop. -/
def murmurHash2 (fuel : ℕ) (key : StringView) (seed : BitVec 64) : Option Run := do
  let len : BitVec 64 := .ofNat 64 key.data.length
  let stop := lenAligned len
  let (hash, blocks) ← blockLoop key.data stop fuel 0 (seed ^^^ (len * mul))
  let (hash, tail) ← mixRest key.data len stop hash
  return { hash := shiftMix (shiftMix hash * mul), blocks, tail }

/-! ### The reference

MurmurHash2 as it is defined for a list of bytes: a fold over the blocks of eight, then the rest as
one number, then the finish.
-/

/-- Mixes one block in. -/
def mixBlock (h : BitVec 64) (block : List (BitVec 8)) : BitVec 64 :=
  let k := .ofNat 64 (numberOf block) * mul
  (h ^^^ ((k ^^^ (k >>> 47)) * mul)) * mul

/-- Mixes the bytes behind the blocks in, if there are any. -/
def mixTail (h : BitVec 64) (tail : List (BitVec 8)) : BitVec 64 :=
  if tail = [] then h else (h ^^^ .ofNat 64 (numberOf tail)) * mul

/-- The 64-bit MurmurHash2: the blocks of eight bytes, the bytes behind them, and two final
mixes. -/
def reference (key : List (BitVec 8)) (seed : BitVec 64) : BitVec 64 :=
  let n := key.length / 8
  let blocks := (List.range' 0 n 8).map fun p ↦ (key.drop p).take 8
  let h := mixTail (blocks.foldl mixBlock (seed ^^^ (.ofNat 64 key.length * mul)))
    (key.drop (8 * n))
  let h := (h ^^^ (h >>> 47)) * mul
  h ^^^ (h >>> 47)

/-- The run reads the blocks at the multiples of eight and then the last bytes from back to front,
and it gives the hash of the reference. -/
structure Run.Exact (run : Run) (key : List (BitVec 8)) (seed : BitVec 64) : Prop where
  /-- Each whole block is read once, from the front. -/
  blocks_eq : run.blocks = List.range' 0 (key.length / 8) 8
  /-- The bytes behind the blocks are read once, from the back. -/
  tail_eq : run.tail = (List.range' (8 * (key.length / 8)) (key.length % 8)).reverse
  /-- The result is the hash of the key. -/
  hash_eq : run.hash = reference key seed

/-! ### The loops

Where `end` is a multiple of eight behind the start and within the key, the main loop reads the
blocks between; where it is not, the loop never meets it. Counting down, `loadBytes` reads the last
bytes as one number.
-/

variable {key : List (BitVec 8)} {stop : ℤ} {p n fuel : ℕ} {hash : BitVec 64}

/-- With `n` blocks before `end`, the loop folds them and stops. -/
theorem blockLoop_eq (hkey : p + 8 * n ≤ key.length) (hstop : stop = ((p + 8 * n : ℕ) : ℤ)) :
    blockLoop key stop (n + 1) p hash =
      some (((List.range' p n 8).map fun q ↦ (key.drop q).take 8).foldl mixBlock hash,
        List.range' p n 8) := by
  induction n generalizing p hash with
  | zero =>
    rw [blockLoop, if_neg fun hne ↦ hne (by omega)]
    rfl
  | succ n ih =>
    have hload : unalignedLoad key p = some (.ofNat 64 (numberOf ((key.drop p).take 8))) :=
      if_pos (by omega)
    rw [blockLoop, if_pos (by omega), hload, Option.bind_eq_bind, Option.bind_some]
    show (blockLoop key stop (n + 1) (p + 8) (mixBlock hash ((key.drop p).take 8))).bind _ = _
    rw [ih (by omega) (by omega), List.range'_succ, List.map_cons, List.foldl_cons]
    rfl

/-- A loop that returns has read as many blocks as lie between its start and `end`. -/
theorem stop_eq_of_blockLoop {hash' : BitVec 64} {offsets : List ℕ}
    (h : blockLoop key stop fuel p hash = some (hash', offsets)) :
    stop = ((p + 8 * offsets.length : ℕ) : ℤ) := by
  induction fuel generalizing p hash offsets with
  | zero => exact absurd h.symm (Option.some_ne_none _)
  | succ fuel ih =>
    rw [blockLoop] at h
    split at h
    · obtain ⟨word, -, h⟩ := Option.bind_eq_some_iff.1 h
      obtain ⟨⟨hash₁, offsets₁⟩, hloop, h⟩ := Option.bind_eq_some_iff.1 h
      obtain ⟨rfl, rfl⟩ := Prod.mk.inj (Option.some.inj h)
      have hstop := ih hloop
      rw [List.length_cons]
      omega
    · obtain ⟨-, rfl⟩ := Prod.mk.inj (Option.some.inj h)
      rw [List.length_nil]
      omega

/-- Shifting a byte in is multiplying by 256 and adding. -/
theorem shiftLeft_add (r : ℕ) (b : BitVec 8) :
    (BitVec.ofNat 64 r <<< 8) + b.setWidth 64 = .ofNat 64 (b.toNat + 256 * r) := by
  refine BitVec.eq_of_toNat_eq ?_
  simp only [BitVec.toNat_add, BitVec.toNat_shiftLeft, BitVec.toNat_ofNat, BitVec.toNat_setWidth,
    Nat.shiftLeft_eq]
  omega

/-- One more byte in front of the number is the most significant one. -/
theorem numberOf_take_succ (hkey : p + n < key.length) : numberOf ((key.drop p).take (n + 1)) =
    numberOf ((key.drop p).take n) + 256 ^ n * key[p + n].toNat := by
  have htake : (key.drop p).take (n + 1) = (key.drop p).take n ++ [key[p + n]] := by
    rw [List.take_succ_eq_append_getElem (by rw [List.length_drop]; omega), List.getElem_drop]
  have hlen : ((key.drop p).take n).length = n := by
    rw [List.length_take, List.length_drop]
    omega
  rw [htake, numberOf_append, hlen]
  rfl

/-- Counting down builds the number of the bytes, the first one being the least significant. -/
theorem loadBytesLoop_eq (hkey : p + n < key.length) (r : ℕ) :
    loadBytesLoop key p n (.ofNat 64 r) =
      some (.ofNat 64 (numberOf ((key.drop p).take (n + 1)) + 256 ^ (n + 1) * r),
        (List.range' p (n + 1)).reverse) := by
  induction n generalizing r with
  | zero =>
    have hbyte : key[p]? = some key[p] := List.getElem?_eq_getElem hkey
    have hnumber : numberOf ((key.drop p).take (0 + 1)) = key[p].toNat := by
      rw [numberOf_take_succ hkey, Nat.pow_zero, Nat.one_mul, List.take_zero]
      exact Nat.zero_add _
    rw [loadBytesLoop, hbyte, Option.bind_eq_bind, Option.bind_some, shiftLeft_add, hnumber]
    rfl
  | succ n ih =>
    have hbyte : key[p + (n + 1)]? = some key[p + (n + 1)] := List.getElem?_eq_getElem hkey
    have hvalue : numberOf ((key.drop p).take (n + 1)) + 256 ^ (n + 1) *
      (key[p + (n + 1)].toNat + 256 * r) =
        numberOf ((key.drop p).take (n + 1 + 1)) + 256 ^ (n + 1 + 1) * r := by
      rw [numberOf_take_succ hkey, Nat.pow_succ _ (n + 1), Nat.mul_add, Nat.mul_assoc,
        Nat.add_assoc]
    have hoffsets : (List.range' p (n + 1 + 1)).reverse =
        (p + (n + 1)) :: (List.range' p (n + 1)).reverse := by
      rw [List.range'_concat, Nat.one_mul, List.reverse_concat]
    rw [loadBytesLoop, hbyte, Option.bind_eq_bind, Option.bind_some, shiftLeft_add, ih (by omega),
      hvalue, hoffsets]
    rfl

/-- The last `n` bytes are read as one number. -/
theorem loadBytes_eq (hn : 0 < n) (hkey : p + n ≤ key.length) :
    loadBytes key p n =
      some (.ofNat 64 (numberOf ((key.drop p).take n)), (List.range' p n).reverse) := by
  obtain ⟨n, rfl⟩ := Nat.exists_eq_add_of_le' hn
  have hloop := loadBytesLoop_eq (p := p) (n := n) (show p + n < key.length by omega) 0
  rw [Nat.mul_zero, Nat.add_zero] at hloop
  rw [loadBytes, if_pos (Int.natCast_nonneg p)]
  exact hloop

/-! ### The block count

The key is as long as a `size_t`, its length without the last three bits is computed as a 64-bit
number, and the result is stored in an `int`.
-/

/-- Clearing three bits rounds down to a multiple of eight. -/
theorem and_not_seven {x : ℕ} (hx : x < 2 ^ 64) : x &&& (2 ^ 64 - 1 - 7) = x / 8 * 8 := by
  have hmask : 2 ^ 64 - 1 - 7 = (2 ^ 61 - 1) <<< 3 := by decide
  have hshift : x / 8 * 8 = (x >>> 3) <<< 3 := by
    rw [Nat.shiftLeft_eq, Nat.shiftRight_eq_div_pow]
  rw [hmask, hshift]
  refine Nat.eq_of_testBit_eq fun i ↦ ?_
  rw [Nat.testBit_and, Nat.testBit_shiftLeft, Nat.testBit_shiftLeft, Nat.testBit_shiftRight,
    Nat.testBit_two_pow_sub_one]
  by_cases hi : 3 ≤ i
  · by_cases hhigh : i < 64
    · rw [show 3 + (i - 3) = i by omega, decide_eq_true hi,
        decide_eq_true (show i - 3 < 61 by omega), Bool.and_true, Bool.true_and, Bool.and_true]
    · have hbit : x.testBit i = false :=
        Nat.testBit_lt_two_pow (Nat.lt_of_lt_of_le hx (Nat.pow_le_pow_right (by decide) (by omega)))
      rw [show 3 + (i - 3) = i by omega, hbit, Bool.false_and, Bool.and_false]
  · rw [decide_eq_false hi, Bool.false_and, Bool.and_false, Bool.false_and]

/-- The block count survives its `int` exactly for keys of fewer than `2 ^ 31` bytes. -/
theorem lenAligned_eq_iff {len : ℕ} (hlen : len < 2 ^ 64) :
    lenAligned (.ofNat 64 len) = ((8 * (len / 8) : ℕ) : ℤ) ↔ len < 2 ^ 31 := by
  have hand : (BitVec.ofNat 64 len &&& ~~~7).toNat = len / 8 * 8 := by
    rw [BitVec.toNat_and, BitVec.toNat_not, BitVec.toNat_ofNat, Nat.mod_eq_of_lt hlen]
    exact and_not_seven hlen
  rw [lenAligned, BitVec.toInt_eq_toNat_cond, BitVec.toNat_setWidth, hand]
  split
  · omega
  · omega

/-- The last three bits are the rest modulo eight. -/
theorem and_seven {len : ℕ} (hlen : len < 2 ^ 64) :
    (BitVec.ofNat 64 len &&& 7).toNat = len % 8 := by
  rw [toNat_and_mask (k := 3) _ rfl, BitVec.toNat_ofNat, Nat.mod_eq_of_lt hlen]
  rfl

/-! ### The hash

Put together, the loop and the rest give the reference if the block count is right, and a run that
returns has a right block count.
-/

variable {seed : BitVec 64}

/-- The test for bytes behind the blocks. -/
theorem and_seven_ne_zero_iff {len : ℕ} (hlen : len < 2 ^ 64) :
    BitVec.ofNat 64 len &&& 7 ≠ 0 ↔ len % 8 ≠ 0 := by
  rw [← and_seven hlen, ne_eq, ne_eq, ← BitVec.toNat_inj]
  rfl

/-- The bytes behind the blocks are mixed in as the reference does it. -/
theorem mixRest_eq (key : StringView) (hash : BitVec 64) :
    mixRest key.data (.ofNat 64 key.data.length) ((8 * (key.data.length / 8) : ℕ) : ℤ) hash =
      some (mixTail hash (key.data.drop (8 * (key.data.length / 8))),
        (List.range' (8 * (key.data.length / 8)) (key.data.length % 8)).reverse) := by
  have hdrop : (key.data.drop (8 * (key.data.length / 8))).length = key.data.length % 8 := by
    rw [List.length_drop]
    omega
  have hnil : key.data.drop (8 * (key.data.length / 8)) = [] ↔ key.data.length % 8 = 0 := by
    rw [← hdrop, List.length_eq_zero_iff]
  by_cases htail : key.data.length % 8 = 0
  · rw [mixRest, if_neg fun hne ↦ (and_seven_ne_zero_iff key.size_lt).1 hne htail, mixTail,
      if_pos (hnil.2 htail), htail]
    rfl
  · have htake : (key.data.drop (8 * (key.data.length / 8))).take (key.data.length % 8) =
        key.data.drop (8 * (key.data.length / 8)) := List.take_of_length_le (by omega)
    rw [mixRest, if_pos ((and_seven_ne_zero_iff key.size_lt).2 htail), and_seven key.size_lt,
      loadBytes_eq (by omega) (by omega), htake, Option.map_some, mixTail,
        if_neg fun h ↦ htail (hnil.1 h)]

/-- A run over a key that is not too long is exact, with one iteration for each block and one
more. -/
theorem murmurHash2_eq (key : StringView) (hlen : key.data.length < 2 ^ 31) (seed : BitVec 64) :
    ∃ run, murmurHash2 (key.data.length / 8 + 1) key seed = some run ∧ run.Exact key.data seed := by
  have hstop := (lenAligned_eq_iff key.size_lt).2 hlen
  have hloop : blockLoop key.data (lenAligned (.ofNat 64 key.data.length)) (key.data.length / 8 + 1)
    0
      (seed ^^^ (.ofNat 64 key.data.length * mul)) =
      some (((List.range' 0 (key.data.length / 8) 8).map fun q ↦ (key.data.drop q).take 8).foldl
        mixBlock
        (seed ^^^ (.ofNat 64 key.data.length * mul)), List.range' 0 (key.data.length / 8) 8) :=
    blockLoop_eq (by omega) (by rw [hstop, Nat.zero_add])
  rw [murmurHash2, hloop, Option.bind_eq_bind, Option.bind_some]
  dsimp only
  rw [hstop, mixRest_eq, Option.bind_some]
  exact ⟨_, rfl, rfl, rfl, rfl⟩

/-- A run that returns has read the blocks up to `end`. -/
theorem lenAligned_eq_of_murmurHash2 {key : StringView} {run : Run}
    (h : murmurHash2 fuel key seed = some run) :
    lenAligned (.ofNat 64 key.data.length) = ((8 * run.blocks.length : ℕ) : ℤ) := by
  rw [murmurHash2] at h
  obtain ⟨⟨hash', blocks⟩, hloop, h⟩ := Option.bind_eq_some_iff.1 h
  obtain ⟨⟨hash'', tail⟩, -, h⟩ := Option.bind_eq_some_iff.1 h
  obtain rfl := Option.some.inj h
  have hstop := stop_eq_of_blockLoop hloop
  rwa [Nat.zero_add] at hstop

/-- The function returns, within the key and with the hash of the reference, exactly for keys of
fewer than `2 ^ 31` bytes. -/
theorem exact_iff (key : StringView) (seed : BitVec 64) :
    (∃ fuel run, murmurHash2 fuel key seed = some run ∧ run.Exact key.data seed) ↔
      key.data.length < 2 ^ 31 := by
  constructor
  · rintro ⟨fuel, run, hrun, hexact⟩
    have hstop := lenAligned_eq_of_murmurHash2 hrun
    rw [hexact.blocks_eq, List.length_range'] at hstop
    exact (lenAligned_eq_iff key.size_lt).1 hstop
  · intro hlen
    obtain ⟨run, hrun, hexact⟩ := murmurHash2_eq key hlen seed
    exact ⟨_, run, hrun, hexact⟩

/-- The shortest key that is too long. -/
def longKey : StringView where
  data := List.replicate (2 ^ 31) 0
  size_lt := by rw [List.length_replicate]; decide

/-- With `2 ^ 31` bytes `end` lies before the key, so that the loop leaves the key whatever
happens. -/
theorem murmurHash2_longKey : ¬∃ fuel run, murmurHash2 fuel longKey 0 = some run := by
  rintro ⟨fuel, run, hrun⟩
  have hlen : longKey.data.length = 2 ^ 31 := List.length_replicate
  have hstop : lenAligned (.ofNat 64 longKey.data.length) = -2 ^ 31 := by
    rw [hlen]
    decide
  have hblocks := lenAligned_eq_of_murmurHash2 hrun
  rw [hstop] at hblocks
  omega

end TcpServer.MurmurHash
