import TcpServer.Lib.Endian
import TcpServer.Lib.InPlace
import TcpServer.Network.AddressText

/-!
# Dotted decimals

`sockaddrToString` writes the text of an IPv4 address into an array of 16 characters, backwards from
its end. Here the array is part of the model, and a write in front of its beginning has no result.
There never is one: a round of the loop does to the array what it does to a text without bound, and
needs four more characters at most (`writeOctets_written`).

The text is that of the four octets in the order of the memory. A strict parser takes this text, and
no other one, back to the address (`parse_eq_some_iff`).

Two steps lead from the array to the octets: the array is refined by a text that grows to the left
(`sockaddrToString_eq`), and the text is that of the octets (`dottedQuad_ntohl`). The strict parser
is not in the source. It stands for any reader of the format, to say that the text is canonical.
-/

namespace TcpServer.Network.DottedDecimal

open Endian InPlace Numerals

/-- `INET_ADDRSTRLEN`. -/
def bufferSize : ℕ := 16

/-- The four bytes of `s_addr` in the memory. They are in network order. -/
structure InAddr where
  /-- The bytes, the first octet first. -/
  bytes : List (BitVec 8)
  /-- There are four of them. -/
  length_bytes : bytes.length = 4

/-- `ntohl` on a little-endian machine. -/
def ntohl (sAddr : InAddr) : BitVec 32 := .ofNat 32 (numberOf sAddr.bytes.reverse)

/-- The array and the index of `start` in it. -/
structure Str where
  /-- The characters of the array, none where nothing has been written. -/
  str : List (Option Char)
  /-- The index of the last character written. -/
  start : ℕ

/-- `*--start = c`. -/
def push (c : Char) (s : Str) : Option Str :=
  match s.start with
  | 0 => none
  | start + 1 => some { str := s.str.set start (some c), start }

/-- The `do` loop over the digits of an octet. -/
def writeDigits (octet : ℕ) (s : Str) : Option Str := do
  let s ← push (Char.ofNat ('0'.toNat + octet % 10)) s
  if octet / 10 ≠ 0 then writeDigits (octet / 10) s else some s
termination_by octet
decreasing_by omega

/-- An octet: its digits, or a zero. -/
def writeOctet (octet : ℕ) (s : Str) : Option Str :=
  if octet = 0 then push '0' s else writeDigits octet s

/-- The dot behind the octet that comes next. -/
def writeDot (i : ℕ) (s : Str) : Option Str :=
  if i ≠ 1 then push '.' s else some s

/-- The `for` loop with `i` octets to go. -/
def writeOctets : ℕ → BitVec 32 → Str → Option Str
  | 0, _, s => some s
  | i + 1, ipv4Addr, s => do
    let s ← writeOctet (ipv4Addr &&& 0xff).toNat s
    let s ← writeDot (i + 1) s
    writeOctets i (ipv4Addr >>> 8) s

/-- `Ipv4Instance::sockaddrToString`. The characters from `start` on are the result. -/
def sockaddrToString (sAddr : InAddr) : Option Text := do
  let s ← writeOctets 4 (ntohl sAddr) { str := List.replicate bufferSize none, start := bufferSize }
  (s.str.drop s.start).mapM id

/-! ### Strict parsing

An octet in the text is a numeral below 256 without superfluous zeros, and four of them with dots
between are an address.
-/

/-- A numeral without superfluous zeros, below 256. -/
def parseOctet (t : Text) : Option (BitVec 8) :=
  if IsNumeral t ∧ Nat.ofDigitChars 10 t 0 < 256 then some (.ofNat 8 (Nat.ofDigitChars 10 t 0))
    else none

/-- Four octets with a dot between them. -/
def parse (t : Text) : Option InAddr := do
  let octets ← (t.splitOn '.').mapM parseOctet
  if h : octets.length = 4 then some ⟨octets, h⟩ else none

/-- The four octets in network order, in decimal and with a dot between them. -/
def quad (sAddr : InAddr) : Text :=
  ['.'].intercalate (sAddr.bytes.map fun octet ↦ decimal octet.toNat)

/-! ### Writing

The array is always full from `start` to its end. A write puts one more character in front.
-/

section

variable {t : Text} {octet i : ℕ}

/-- The array with the text `t` at its end. -/
def written (t : Text) : Str where
  str := List.replicate (bufferSize - t.length) none ++ t.map some
  start := bufferSize - t.length

/-- A character is put in front, if there is room. -/
theorem push_written (c : Char) (h : t.length < bufferSize) :
    push c (written t) = some (written (c :: t)) := by
  obtain ⟨k, hk⟩ : ∃ k, bufferSize - t.length = k + 1 := ⟨bufferSize - t.length - 1, by omega⟩
  have hk' : bufferSize - (c :: t).length = k := by
    rw [List.length_cons]
    omega
  have hset : (List.replicate (k + 1) none ++ t.map some).set k (some c) =
      List.replicate k none ++ (c :: t).map some := by
    rw [List.replicate_succ', List.append_assoc,
      List.set_append_right _ _ (Nat.le_of_eq List.length_replicate), List.length_replicate,
        Nat.sub_self]
    rfl
  rw [written, written, hk, hk', push]
  exact congrArg (fun str ↦ some (Str.mk str k)) hset

/-- So is the numeral of an octet. -/
theorem writeDigits_written (h : (decimal octet ++ t).length ≤ bufferSize) :
    writeDigits octet (written t) = some (written (decimal octet ++ t)) := by
  induction octet using Nat.strongRecOn generalizing t with
  | ind octet ih =>
    have hpos : 0 < (decimal octet).length := List.length_pos_of_ne_nil Nat.toDigits_ne_nil
    rw [List.length_append] at h
    rw [writeDigits, Ipv4Instance.ofNat_digit (Nat.mod_lt _ (by decide)), push_written _ (by omega),
      Option.bind_eq_bind, Option.bind_some]
    by_cases hmore : octet / 10 ≠ 0
    · have hsplit : decimal octet = decimal (octet / 10) ++ [(octet % 10).digitChar] :=
        Nat.toDigits_of_base_le (by decide) (by omega)
      have hlen := congrArg List.length hsplit
      rw [List.length_append, List.length_singleton] at hlen
      rw [if_pos hmore, ih (octet / 10) (by omega)
        (by rw [List.length_append, List.length_cons]; omega), hsplit, List.append_assoc]
      rfl
    · rw [if_neg hmore, decimal, Nat.toDigits_of_lt_base (by omega), Nat.mod_eq_of_lt (by omega)]
      rfl

theorem length_decimal_le (h : octet < 256) : (decimal octet).length ≤ 3 :=
  length_toDigits_le (by decide) (by decide) (by omega)

/-- Three characters are enough for an octet. -/
theorem writeOctet_written (ho : octet < 256) (h : t.length + 3 ≤ bufferSize) :
    writeOctet octet (written t) = some (written (decimal octet ++ t)) := by
  have hlen := length_decimal_le ho
  rw [writeOctet]
  by_cases hzero : octet = 0
  · rw [if_pos hzero, push_written _ (by omega), hzero]
    rfl
  · rw [if_neg hzero, writeDigits_written (by rw [List.length_append]; omega)]

/-- One round of the loop does to the array what it does to the text. -/
theorem writeOctets_written (a : BitVec 32) (h : t.length + 4 * i ≤ bufferSize) :
    writeOctets i a (written t) = some (written (Ipv4Instance.writeOctets a t i)) := by
  induction i generalizing a t with
  | zero => rfl
  | succ i ih =>
    have hoctet : (a &&& 0xff).toNat = a.toNat % 2 ^ 8 := Ipv4Instance.toNat_octet a
    have hlen : (decimal (a.toNat % 2 ^ 8)).length ≤ 3 := length_decimal_le (by omega)
    rw [writeOctets, hoctet, writeOctet_written (by omega) (by omega), Option.bind_eq_bind,
      Option.bind_some, writeDot, Ipv4Instance.writeOctets_succ]
    by_cases hi : i ≠ 0
    · rw [if_pos (by omega), if_pos hi, push_written _ (by rw [List.length_append]; omega),
        Option.bind_some, ih _ (by rw [List.length_cons, List.length_append]; omega)]
    · rw [if_neg (by omega), if_neg hi, Option.bind_some, ih _ (by rw [List.length_append]; omega)]

end

/-! ### The text

What has been written is put together: the text fits into the array, and reading it strictly gives
the octets back.
-/

/-- The dotted quad of the number is that of the octets in memory. -/
theorem dottedQuad_ntohl (sAddr : InAddr) : dottedQuad (ntohl sAddr) = quad sAddr := by
  obtain ⟨bytes, hlen⟩ := sAddr
  match bytes, hlen with
  | [b₀, b₁, b₂, b₃], _ =>
    have h₀ := b₀.isLt
    have h₁ := b₁.isLt
    have h₂ := b₂.isLt
    have h₃ := b₃.isLt
    have hnumber : numberOf [b₃, b₂, b₁, b₀] =
        b₃.toNat + 256 * (b₂.toNat + 256 * (b₁.toNat + 256 * (b₀.toNat + 256 * 0))) := rfl
    have hntohl : (ntohl ⟨[b₀, b₁, b₂, b₃], rfl⟩).toNat =
        b₃.toNat + 256 * (b₂.toNat + 256 * (b₁.toNat + 256 * b₀.toNat)) := by
      rw [ntohl]
      show (BitVec.ofNat 32 (numberOf [b₃, b₂, b₁, b₀])).toNat = _
      rw [BitVec.toNat_ofNat, hnumber]
      omega
    have ha : (ntohl ⟨[b₀, b₁, b₂, b₃], rfl⟩).toNat / 2 ^ 24 = b₀.toNat := by omega
    have hb : (ntohl ⟨[b₀, b₁, b₂, b₃], rfl⟩).toNat / 2 ^ 16 % 2 ^ 8 = b₁.toNat := by omega
    have hc : (ntohl ⟨[b₀, b₁, b₂, b₃], rfl⟩).toNat / 2 ^ 8 % 2 ^ 8 = b₂.toNat := by omega
    have hd : (ntohl ⟨[b₀, b₁, b₂, b₃], rfl⟩).toNat % 2 ^ 8 = b₃.toNat := by omega
    rw [dottedQuad, ha, hb, hc, hd, quad]
    simp [List.intercalate]

/-- The writing of the text alone, refined to the array. -/
theorem sockaddrToString_eq (sAddr : InAddr) (port : BitVec 16) :
    sockaddrToString sAddr =
      some (Ipv4Instance.sockaddrToString { sinPort := port, sinAddr := ntohl sAddr }) := by
  have hempty : Str.mk (List.replicate bufferSize none) bufferSize = written [] := rfl
  have hread (t : Text) : (written t).str.drop (written t).start = t.map some :=
    List.drop_left' List.length_replicate
  rw [sockaddrToString, hempty, writeOctets_written _ (by decide), Option.bind_eq_bind,
    Option.bind_some, hread, mapM_map_some]
  rfl

theorem sockaddrToString_eq_quad (sAddr : InAddr) : sockaddrToString sAddr = some (quad sAddr) := by
  rw [sockaddrToString_eq sAddr 0, Ipv4Instance.sockaddrToString_eq, dottedQuad_ntohl]

theorem parseOctet_decimal (octet : BitVec 8) : parseOctet (decimal octet.toNat) = some octet := by
  have hvalue : Nat.ofDigitChars 10 (decimal octet.toNat) 0 = octet.toNat :=
    Nat.ofDigitChars_ten_toDigits
  rw [parseOctet, hvalue, if_pos ⟨isNumeral_toDigits _, octet.isLt⟩, BitVec.ofNat_toNat,
    BitVec.setWidth_eq]

theorem decimal_of_parseOctet {t : Text} {octet : BitVec 8} (h : parseOctet t = some octet) :
    decimal octet.toNat = t := by
  rw [parseOctet] at h
  split_ifs at h with ht
  rw [← Option.some_inj.1 h, BitVec.toNat_ofNat, Nat.mod_eq_of_lt ht.2]
  exact ht.1.toDigits_eq

/-- The strict parser is the inverse of the rendering. -/
theorem parse_eq_some_iff {t : Text} {sAddr : InAddr} : parse t = some sAddr ↔ t = quad sAddr := by
  constructor
  · intro h
    obtain ⟨octets, hoctets, h⟩ := Option.bind_eq_some_iff.1 h
    split_ifs at h with hlen
    rw [← Option.some_inj.1 h, quad, map_eq_of_mapM (fun _ _ ↦ decimal_of_parseOctet) hoctets,
      List.intercalate_splitOn]
  · rintro rfl
    have hdot : ∀ part ∈ sAddr.bytes.map fun octet ↦ decimal octet.toNat, '.' ∉ part := by
      intro part hpart
      obtain ⟨octet, -, rfl⟩ := List.mem_map.1 hpart
      exact notMem_decimal (by decide) _
    have hne : sAddr.bytes.map (fun octet ↦ decimal octet.toNat) ≠ [] := by
      intro hnil
      have hlen := sAddr.length_bytes
      rw [List.map_eq_nil_iff.1 hnil] at hlen
      exact absurd hlen (by decide)
    rw [parse, quad, List.splitOn_intercalate '.' hdot hne,
      mapM_map_of_forall fun octet _ ↦ parseOctet_decimal octet, Option.bind_eq_bind,
        Option.bind_some,
      dif_pos sAddr.length_bytes]

/-- For every address, nothing is written outside of the array, the result is the four octets in
network order, and it is the one text which strict parsing takes to the address. -/
theorem sockaddrToString_canonical (sAddr : InAddr) :
    ∃ text, sockaddrToString sAddr = some text ∧ text = quad sAddr ∧ parse text = some sAddr ∧
      (∀ t, parse t = some sAddr → t = text) ∧
      ∀ sAddr', sockaddrToString sAddr' = some text → sAddr' = sAddr := by
  refine ⟨quad sAddr, sockaddrToString_eq_quad sAddr, rfl, parse_eq_some_iff.2 rfl,
    fun t ↦ parse_eq_some_iff.1, fun sAddr' h ↦ ?_⟩
  rw [sockaddrToString_eq_quad] at h
  have hparse : parse (quad sAddr') = some sAddr' := parse_eq_some_iff.2 rfl
  rw [Option.some_inj.1 h, parse_eq_some_iff.2 rfl] at hparse
  exact (Option.some_inj.1 hparse).symm

example : sockaddrToString ⟨[10, 0, 200, 7], rfl⟩ = some "10.0.200.7".toList := by decide +kernel

end TcpServer.Network.DottedDecimal
