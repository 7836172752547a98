import TcpServer.Lib.Endian
import TcpServer.Network.Address
import Mathlib.Data.List.TakeWhile
import Mathlib.Tactic.IntervalCases

/-!
# The text of an IP address

An IP instance keeps its address twice, as a socket address and as text. The constructors from a
socket address, and all of `Ipv6Instance`, render the text from what is stored. The constructors of
`Ipv4Instance` from a string or a port take the text of the caller and all 32 bits of the port, so
the two agree only if the caller's text is what would have been rendered and the port has 16 bits
(`textAgrees_build_iff`).

Where they agree, the text says as much as the socket address: dotted quads are injective
(`dottedQuad_inj`), and so is `inet_ntop` if `inet_pton` inverts it.

The C library is a parameter, and two facts about it are used: `inet_pton` parses dotted quads, and
it inverts `inet_ntop`. For examples there is a library with these properties (`plainLibc`), which
prints addresses as `inet_ntop` does as long as no zeros are left out in their middle.
-/

namespace TcpServer.Network

open Numerals

theorem notMem_decimal {c : Char} (hc : ¬ c.isAlphanum) (n : ℕ) : c ∉ decimal n :=
  notMem_toDigits (by decide) (by decide) hc

theorem decimal_inj {m n : ℕ} : decimal m = decimal n ↔ m = n :=
  toDigits_inj (by decide) (by decide)

/-! ### Dotted quads

Each octet is written from its last digit on, and the text grows to the left. The result is the four
numerals with dots between them.
-/

/-- The four octets, most significant first. -/
def dottedQuad (a : BitVec 32) : Text :=
  decimal (a.toNat / 2 ^ 24) ++ '.' :: (decimal (a.toNat / 2 ^ 16 % 2 ^ 8) ++
    '.' :: (decimal (a.toNat / 2 ^ 8 % 2 ^ 8) ++ '.' :: decimal (a.toNat % 2 ^ 8)))

namespace Ipv4Instance

theorem ofNat_digit {d : ℕ} (hd : d < 10) : Char.ofNat ('0'.toNat + d) = d.digitChar := by
  have hall : ∀ d < 10, Char.ofNat ('0'.toNat + d) = d.digitChar := by decide
  exact hall d hd

/-- The loop puts the numeral of the octet in front of the text. -/
theorem writeDigits_eq (str : Text) {fuel octet : ℕ} (hfuel : 0 < fuel) (h : octet < 10 ^ fuel) :
    writeDigits octet str fuel = decimal octet ++ str := by
  induction fuel generalizing octet str with
  | zero => omega
  | succ fuel ih =>
    rw [writeDigits, ofNat_digit (Nat.mod_lt _ (by decide)), decimal]
    split_ifs with hmore
    · have hpos : 0 < fuel := by
        by_contra hzero
        obtain rfl : fuel = 0 := by omega
        omega
      rw [ih _ hpos (by rw [Nat.pow_succ] at h; omega),
        Nat.toDigits_of_base_le (by decide) (by omega), decimal, List.append_assoc,
        List.singleton_append]
    · rw [Nat.toDigits_of_lt_base (by omega), Nat.mod_eq_of_lt (by omega)]
      rfl

theorem toNat_octet (a : BitVec 32) : (a &&& 0xff#32).toNat = a.toNat % 2 ^ 8 :=
  Endian.toNat_and_mask a rfl

/-- One round writes the last octet, with a dot in front of all but the first. -/
theorem writeOctets_succ (a : BitVec 32) (str : Text) (i : ℕ) :
    writeOctets a str (i + 1) =
      writeOctets (a >>> 8)
        (if i ≠ 0 then '.' :: (decimal (a.toNat % 2 ^ 8) ++ str)
          else decimal (a.toNat % 2 ^ 8) ++ str)
        i := by
  have hdigits : (if a.toNat % 2 ^ 8 = 0 then '0' :: str else writeDigits (a.toNat % 2 ^ 8) str 3) =
      decimal (a.toNat % 2 ^ 8) ++ str := by
    split_ifs with hzero
    · rw [hzero, decimal, Nat.toDigits_zero]
      rfl
    · exact writeDigits_eq str (by decide) (by omega)
  rw [writeOctets, toNat_octet, hdigits]

/-- The text of an IPv4 address. -/
theorem sockaddrToString_eq (addr : SockaddrIn) :
    sockaddrToString addr = dottedQuad addr.sinAddr := by
  have hshift (a : BitVec 32) : (a >>> 8).toNat = a.toNat / 2 ^ 8 := by
    rw [BitVec.toNat_ushiftRight, Nat.shiftRight_eq_div_pow]
  have hlt := addr.sinAddr.isLt
  have h₂ : addr.sinAddr.toNat / 2 ^ 8 / 2 ^ 8 = addr.sinAddr.toNat / 2 ^ 16 := by omega
  have h₃ : addr.sinAddr.toNat / 2 ^ 16 / 2 ^ 8 % 2 ^ 8 = addr.sinAddr.toNat / 2 ^ 24 := by omega
  rw [sockaddrToString, writeOctets_succ _ _ 3, writeOctets_succ _ _ 2, writeOctets_succ _ _ 1,
    writeOctets_succ _ _ 0, writeOctets, if_neg (show ¬ (0 : ℕ) ≠ 0 by decide),
    if_pos (show (1 : ℕ) ≠ 0 by decide), if_pos (show (2 : ℕ) ≠ 0 by decide),
    if_pos (show (3 : ℕ) ≠ 0 by decide)]
  simp only [hshift, h₂, h₃, dottedQuad, List.append_nil]

end Ipv4Instance

/-- It says which address it is. -/
theorem dottedQuad_inj {a b : BitVec 32} : dottedQuad a = dottedQuad b ↔ a = b := by
  refine ⟨fun h ↦ ?_, fun h ↦ h ▸ rfl⟩
  have hdot (n : ℕ) : '.' ∉ decimal n := notMem_decimal (by decide) n
  obtain ⟨h₁, h⟩ := (append_cons_inj_left (hdot _) (hdot _)).1 h
  obtain ⟨h₂, h⟩ := (append_cons_inj_left (hdot _) (hdot _)).1 h
  obtain ⟨h₃, h₄⟩ := (append_cons_inj_left (hdot _) (hdot _)).1 h
  rw [decimal_inj] at h₁ h₂ h₃ h₄
  refine BitVec.eq_of_toNat_eq ?_
  omega

theorem nul_notMem_dottedQuad (a : BitVec 32) : nul ∉ dottedQuad a := by
  have hnul (n : ℕ) : nul ∉ decimal n := notMem_decimal (by decide) n
  have hdot : nul ≠ '.' := by decide
  simp [dottedQuad, hnul, hdot]

theorem cStr_of_notMem {s : Text} (h : nul ∉ s) : cStr s = s :=
  List.takeWhile_eq_self_iff.2 fun _ hc ↦ decide_eq_true fun hnul ↦ h (hnul ▸ hc)

/-! ### Text and binary form

A construction is a call of a public constructor. Whether its two texts are what the stored address
would be rendered as is a question about what the caller has passed.
-/

/-- The zone of a scoped address. -/
def renderScope (scopeId : BitVec 32) : Text :=
  if scopeId ≠ 0 then '%' :: decimal scopeId.toNat else []

namespace Instance

/-- Both texts are the rendering of what is stored. -/
def TextAgrees (libc : Libc) : Instance → Prop
  | ipv4 i =>
    i.friendlyAddress = dottedQuad i.address.sinAddr ∧
      i.friendlyName = dottedQuad i.address.sinAddr ++ ':' :: decimal i.port
  | ipv6 i =>
    let address := libc.inetNtop6 i.address.sin6Addr ++ renderScope i.address.sin6ScopeId
    i.friendlyAddress = address ∧
      i.friendlyName = '[' :: address ++ ']' :: ':' :: decimal i.port
  | _ => False

/-- The scope of an IP address, as text. -/
def scopeText : Instance → Text
  | ipv6 i => renderScope i.address.sin6ScopeId
  | _ => []

end Instance

/-- A call of a public constructor of `Ipv4Instance` or `Ipv6Instance`. -/
inductive IpConstruction
  | ipv4OfSockaddr (address : SockaddrIn)
  | ipv4OfString (address : Text)
  | ipv4OfStringPort (address : Text) (port : BitVec 32)
  | ipv4OfPort (port : BitVec 32)
  | ipv6OfSockaddr (address : SockaddrIn6) (v6only : Bool)
  | ipv6OfString (address : Text)
  | ipv6OfStringPort (address : Text) (port : BitVec 32) (v6only : Bool)
  | ipv6OfPort (port : BitVec 32)

namespace IpConstruction

/-- The address that is made. -/
def build (libc : Libc) : IpConstruction → Instance
  | ipv4OfSockaddr address => .ipv4 (.ofSockaddr address)
  | ipv4OfString address => .ipv4 (.ofString libc address)
  | ipv4OfStringPort address port => .ipv4 (.ofStringPort libc address port)
  | ipv4OfPort port => .ipv4 (.ofPort port)
  | ipv6OfSockaddr address v6only => .ipv6 (.ofSockaddr libc address v6only)
  | ipv6OfString address => .ipv6 (.ofString libc address)
  | ipv6OfStringPort address port v6only => .ipv6 (.ofStringPort libc address port v6only)
  | ipv6OfPort port => .ipv6 (.ofPort libc port)

/-- Where `Ipv4Instance` takes text or a port from the caller, the text is a dotted quad and the
port has 16 bits. -/
def Canonical : IpConstruction → Prop
  | ipv4OfString address => ∃ a, address = dottedQuad a
  | ipv4OfStringPort address port => (∃ a, address = dottedQuad a) ∧ port.toNat < 2 ^ 16
  | ipv4OfPort port => port.toNat < 2 ^ 16
  | _ => True

end IpConstruction

section

variable {libc : Libc}

/-- The text of an IPv6 address, with its zone. -/
theorem makeFriendlyAddress_eq (libc : Libc) (address : SockaddrIn6) :
    Ipv6Instance.makeFriendlyAddress libc address =
      libc.inetNtop6 address.sin6Addr ++ renderScope address.sin6ScopeId := by
  rw [Ipv6Instance.makeFriendlyAddress, renderScope]
  split_ifs
  · rfl
  · rw [List.append_nil]

theorem textAgrees_ipv6_initHelper (address : SockaddrIn6) (v6only : Bool) :
    Instance.TextAgrees libc (.ipv6 (.initHelper libc address v6only)) := by
  have haddress := makeFriendlyAddress_eq libc address
  exact ⟨haddress, by rw [Ipv6Instance.initHelper, haddress]; rfl⟩

theorem textAgrees_ipv4_ofSockaddr (address : SockaddrIn) :
    Instance.TextAgrees libc (.ipv4 (.ofSockaddr address)) := by
  have haddress := Ipv4Instance.sockaddrToString_eq address
  exact ⟨haddress, by rw [Ipv4Instance.ofSockaddr, Ipv4Instance.initHelper, haddress]; rfl⟩

/-- `htons` keeps a port of 16 bits, and no other. -/
theorem decimal_setWidth_iff (port : BitVec 32) :
    decimal port.toNat = decimal (port.setWidth 16).toNat ↔ port.toNat < 2 ^ 16 := by
  rw [decimal_inj, BitVec.toNat_setWidth]
  omega

/-- From text and a port, the two agree for a dotted quad and a port of 16 bits. -/
theorem textAgrees_ipv4_ofStringPort (h4 : ∀ a, libc.inetPton4 (dottedQuad a) = some a)
    (address : Text) (port : BitVec 32) :
    Instance.TextAgrees libc (.ipv4 (.ofStringPort libc address port)) ↔
      (∃ a, address = dottedQuad a) ∧ port.toNat < 2 ^ 16 := by
  constructor
  · rintro ⟨haddress, hname⟩
    have haddress : address = dottedQuad _ := haddress
    refine ⟨⟨_, haddress⟩, (decimal_setWidth_iff port).1 ?_⟩
    have hname : address ++ ':' :: decimal port.toNat =
        dottedQuad _ ++ ':' :: decimal (port.setWidth 16).toNat := hname
    have hcolon (n : ℕ) : ':' ∉ decimal n := notMem_decimal (by decide) n
    exact ((append_cons_inj_right (hcolon _) (hcolon _)).1 hname).2
  · rintro ⟨⟨a, rfl⟩, hport⟩
    have hstored : (libc.inetPton4 (cStr (dottedQuad a))).getD 0 = a := by
      rw [cStr_of_notMem (nul_notMem_dottedQuad a), h4, Option.getD_some]
    have hdecimal := (decimal_setWidth_iff port).2 hport
    refine ⟨?_, ?_⟩
    · show dottedQuad a = dottedQuad _
      rw [Ipv4Instance.ofStringPort, hstored]
    · show dottedQuad a ++ ':' :: decimal port.toNat = dottedQuad _ ++ ':' :: decimal _
      rw [hdecimal, Ipv4Instance.ofStringPort, hstored]
      rfl

/-- From a port, they agree for 16 bits. -/
theorem textAgrees_ipv4_ofPort (port : BitVec 32) :
    Instance.TextAgrees libc (.ipv4 (.ofPort port)) ↔ port.toNat < 2 ^ 16 := by
  have hzero : "0.0.0.0".toList = dottedQuad 0 := by decide
  rw [← decimal_setWidth_iff]
  constructor
  · rintro ⟨-, hname⟩
    have hname : "0.0.0.0".toList ++ ':' :: decimal port.toNat =
        dottedQuad 0 ++ ':' :: decimal (port.setWidth 16).toNat := hname
    have hcolon (n : ℕ) : ':' ∉ decimal n := notMem_decimal (by decide) n
    exact ((append_cons_inj_right (hcolon _) (hcolon _)).1 hname).2
  · intro hport
    refine ⟨hzero, ?_⟩
    show "0.0.0.0".toList ++ ':' :: decimal port.toNat = dottedQuad 0 ++ ':' :: decimal _
    rw [hport, hzero]
    rfl

/-- They agree exactly for the canonical constructions. -/
theorem textAgrees_build_iff (h4 : ∀ a, libc.inetPton4 (dottedQuad a) = some a)
    (c : IpConstruction) : (c.build libc).TextAgrees libc ↔ c.Canonical := by
  cases c with
  | ipv4OfSockaddr address => exact iff_of_true (textAgrees_ipv4_ofSockaddr address) trivial
  | ipv4OfString address =>
    refine (textAgrees_ipv4_ofStringPort h4 address 0).trans (and_iff_left ?_)
    decide
  | ipv4OfStringPort address port => exact textAgrees_ipv4_ofStringPort h4 address port
  | ipv4OfPort port => exact textAgrees_ipv4_ofPort port
  | ipv6OfSockaddr | ipv6OfString | ipv6OfStringPort | ipv6OfPort =>
    exact iff_of_true (textAgrees_ipv6_initHelper _ _) trivial

/-! ### Equality and text

Two addresses whose texts agree with what they store are equal exactly if their texts are. The scope
is compared too, and stands in the text behind what `inet_ntop` writes. So this holds of addresses
with the same scope whatever `inet_ntop` writes, and of all addresses if it writes no `%`.
-/

/-- The zone says which scope it is. -/
theorem renderScope_inj {s t : BitVec 32} : renderScope s = renderScope t ↔ s = t := by
  refine ⟨fun h ↦ ?_, fun h ↦ h ▸ rfl⟩
  unfold renderScope at h
  split_ifs at h with hs ht ht
  · exact BitVec.eq_of_toNat_eq (decimal_inj.1 (List.cons.inj h).2)
  · exact (not_not.1 hs).trans (not_not.1 ht).symm

/-- The text of an IPv6 address starts with a bracket, that of an IPv4 address does not have one. -/
theorem bracket_notMem (a : BitVec 32) (port : ℕ) : '[' ∉ dottedQuad a ++ ':' :: decimal port := by
  have hbracket (n : ℕ) : '[' ∉ decimal n := notMem_decimal (by decide) n
  simp [dottedQuad, hbracket]

/-- A text with a bracket in front is not that of an IPv4 address. -/
theorem not_asString_ipv6_eq {i : Ipv4Instance} {j : Ipv6Instance}
    (hi : (Instance.ipv4 i).TextAgrees libc)
    (hj : (Instance.ipv6 j).TextAgrees libc) : i.friendlyName ≠ j.friendlyName := by
  intro h
  rw [hi.2, hj.2] at h
  exact bracket_notMem i.address.sinAddr i.port (by rw [h]; exact List.mem_cons_self)

/-- Texts that agree with what is stored compare as what is stored does. -/
theorem eq_iff_asString_eq (h6 : ∀ a, libc.inetPton6 (libc.inetNtop6 a) = some a) {x y : Instance}
    (hx : x.TextAgrees libc) (hy : y.TextAgrees libc) (hscope : x.scopeText = y.scopeText) :
    x.eq y = true ↔ x.asString = y.asString := by
  have hcolon (n : ℕ) : ':' ∉ decimal n := notMem_decimal (by decide) n
  cases x with
  | ipv4 i =>
    cases y with
    | ipv4 j =>
      rw [Instance.asString, Instance.asString, hx.2, hy.2,
        append_cons_inj_right (hcolon _) (hcolon _), dottedQuad_inj, decimal_inj]
      exact decide_eq_true_iff
    | ipv6 j =>
      exact iff_of_false (nomatch ·) (not_asString_ipv6_eq hx hy)
    | pipe | envoyInternal => exact hy.elim
  | ipv6 i =>
    cases y with
    | ipv4 j =>
      exact iff_of_false (nomatch ·) (not_asString_ipv6_eq hy hx).symm
    | ipv6 j =>
      have hinj : Function.Injective libc.inetNtop6 := fun a b h ↦
        Option.some.inj ((h6 a).symm.trans ((congrArg libc.inetPton6 h).trans (h6 b)))
      have hscope : i.address.sin6ScopeId = j.address.sin6ScopeId := renderScope_inj.1 hscope
      -- The last colon of the text is the one in front of the port.
      have hsplit (address port : Text) : '[' :: address ++ ']' :: ':' :: port =
          ('[' :: address ++ [']']) ++ ':' :: port := by
        rw [List.append_assoc, List.singleton_append]
      rw [Instance.asString, Instance.asString, hx.2, hy.2, hsplit, hsplit,
        append_cons_inj_right (hcolon _) (hcolon _), List.append_left_inj, List.cons.injEq, hscope,
        List.append_left_inj, hinj.eq_iff, decimal_inj]
      refine decide_eq_true_iff.trans ?_
      simp only [hscope, and_true, true_and]
    | pipe | envoyInternal => exact hy.elim
  | pipe | envoyInternal => exact hx.elim

/-- What `inet_ntop` writes: digits, letters, dots and colons. -/
def PlainText (s : Text) : Prop := ∀ c ∈ s, c.isAlphanum ∨ c = ':' ∨ c = '.'

theorem PlainText.notMem {s : Text} (h : PlainText s) {c : Char}
    (hc : ¬ (c.isAlphanum ∨ c = ':' ∨ c = '.')) : c ∉ s :=
  fun hmem ↦ hc (h c hmem)

/-- The zone is what is behind the percent sign. -/
theorem renderScope_eq_of_append_eq {x y : Text} {s t : BitVec 32} (hx : PlainText x)
    (hy : PlainText y) (h : x ++ renderScope s = y ++ renderScope t) :
    renderScope s = renderScope t := by
  have hx : '%' ∉ x := hx.notMem (by decide)
  have hy : '%' ∉ y := hy.notMem (by decide)
  unfold renderScope at h ⊢
  split_ifs at h ⊢
  · exact congrArg _ ((append_cons_inj_left hx hy).1 h).2
  · rw [List.append_nil] at h
    exact absurd (h ▸ List.mem_append_right x List.mem_cons_self) hy
  · rw [List.append_nil] at h
    exact absurd (h ▸ List.mem_append_right y List.mem_cons_self) hx
  · rfl

/-- Texts that are equal have the same zone. -/
theorem scopeText_eq_of_asString_eq (hplain : ∀ a, PlainText (libc.inetNtop6 a)) {x y : Instance}
    (hx : x.TextAgrees libc) (hy : y.TextAgrees libc) (h : x.asString = y.asString) :
    x.scopeText = y.scopeText := by
  cases x with
  | ipv4 i =>
    cases y with
    | ipv4 j => rfl
    | ipv6 j => exact absurd h (not_asString_ipv6_eq hx hy)
    | pipe | envoyInternal => exact hy.elim
  | ipv6 i =>
    cases y with
    | ipv4 j => exact absurd h.symm (not_asString_ipv6_eq hy hx)
    | ipv6 j =>
      have hbracket (n : ℕ) : ']' ∉ ':' :: decimal n := by
        rw [List.mem_cons, not_or]
        exact ⟨by decide, notMem_decimal (by decide) n⟩
      have h : '[' :: (libc.inetNtop6 i.address.sin6Addr ++ renderScope i.address.sin6ScopeId) ++
            ']' :: ':' :: decimal i.port =
          '[' :: (libc.inetNtop6 j.address.sin6Addr ++ renderScope j.address.sin6ScopeId) ++
            ']' :: ':' :: decimal j.port := hx.2.symm.trans (h.trans hy.2)
      have haddress := ((append_cons_inj_right (hbracket _) (hbracket _)).1 h).1
      exact renderScope_eq_of_append_eq (hplain _) (hplain _) (List.cons.inj haddress).2
    | pipe | envoyInternal => exact hy.elim
  | pipe | envoyInternal => exact hx.elim

/-- Addresses that are equal have the same zone. -/
theorem scopeText_eq_of_eq {x y : Instance} (hx : x.TextAgrees libc) (h : x.eq y = true) :
    x.scopeText = y.scopeText := by
  cases x with
  | ipv4 i =>
    cases y with
    | ipv4 j => rfl
    | ipv6 | pipe | envoyInternal => exact nomatch h
  | ipv6 i =>
    cases y with
    | ipv6 j => exact congrArg renderScope (of_decide_eq_true (p := _ ∧ _ ∧ _) h).2.2
    | ipv4 | pipe | envoyInternal => exact nomatch h
  | pipe | envoyInternal => exact hx.elim

/-- The text is a key for the address, zone and all. -/
theorem eq_iff_asString_eq_of_plain (h6 : ∀ a, libc.inetPton6 (libc.inetNtop6 a) = some a)
    (hplain : ∀ a, PlainText (libc.inetNtop6 a)) {x y : Instance} (hx : x.TextAgrees libc)
    (hy : y.TextAgrees libc) : x.eq y = true ↔ x.asString = y.asString :=
  ⟨fun h ↦ (eq_iff_asString_eq h6 hx hy (scopeText_eq_of_eq hx h)).1 h,
    fun h ↦ (eq_iff_asString_eq h6 hx hy (scopeText_eq_of_asString_eq hplain hx hy h)).2 h⟩

/-- **Text and binary form agree** for the addresses of a program if and only if what it passes to
the constructors of `Ipv4Instance` is canonical; the text is then a key for the address. -/
theorem text_agrees_iff (h4 : ∀ a, libc.inetPton4 (dottedQuad a) = some a)
    (h6 : ∀ a, libc.inetPton6 (libc.inetNtop6 a) = some a) (built : Set IpConstruction) :
    ((∀ c ∈ built, (c.build libc).TextAgrees libc) ∧
      ∀ c ∈ built, ∀ d ∈ built, (c.build libc).scopeText = (d.build libc).scopeText →
        ((c.build libc).eq (d.build libc) = true ↔
          (c.build libc).asString = (d.build libc).asString)) ↔
      ∀ c ∈ built, c.Canonical := by
  constructor
  · exact fun h c hc ↦ (textAgrees_build_iff h4 c).1 (h.1 c hc)
  · intro h
    have hagrees : ∀ c ∈ built, (c.build libc).TextAgrees libc :=
      fun c hc ↦ (textAgrees_build_iff h4 c).2 (h c hc)
    exact ⟨hagrees, fun c hc d hd hscope ↦ eq_iff_asString_eq h6 (hagrees c hc) (hagrees d hd)
      hscope⟩

end

/-! ### A C library

The library is used for witnesses. What it parses is by definition what it prints, so that it is
enough for printing to be injective.
-/

/-- The eight groups of an IPv6 address, which is what `inet_ntop` writes where no group is zero. -/
def colonGroups (a : BitVec 128) : Text :=
  let group (i : ℕ) : Text := Nat.toDigits 16 (a.toNat / 2 ^ (16 * i) % 2 ^ 16)
  group 7 ++ ':' :: (group 6 ++ ':' :: (group 5 ++ ':' :: (group 4 ++ ':' :: (group 3 ++
    ':' :: (group 2 ++ ':' :: (group 1 ++ ':' :: group 0))))))

/-- Eight groups say which address they are. -/
theorem colonGroups_injective : Function.Injective colonGroups := by
  intro a b h
  have hcolon (n : ℕ) : ':' ∉ Nat.toDigits 16 n :=
    notMem_toDigits (by decide) (by decide) (by decide)
  rw [colonGroups] at h
  obtain ⟨h₇, h⟩ := (append_cons_inj_left (hcolon _) (hcolon _)).1 h
  obtain ⟨h₆, h⟩ := (append_cons_inj_left (hcolon _) (hcolon _)).1 h
  obtain ⟨h₅, h⟩ := (append_cons_inj_left (hcolon _) (hcolon _)).1 h
  obtain ⟨h₄, h⟩ := (append_cons_inj_left (hcolon _) (hcolon _)).1 h
  obtain ⟨h₃, h⟩ := (append_cons_inj_left (hcolon _) (hcolon _)).1 h
  obtain ⟨h₂, h⟩ := (append_cons_inj_left (hcolon _) (hcolon _)).1 h
  obtain ⟨h₁, h₀⟩ := (append_cons_inj_left (hcolon _) (hcolon _)).1 h
  rw [toDigits_inj (by decide) (by decide)] at h₀ h₁ h₂ h₃ h₄ h₅ h₆ h₇
  have hdigits (i : ℕ) (hi : i < 8) :
      a.toNat / (2 ^ 16) ^ i % 2 ^ 16 = b.toNat / (2 ^ 16) ^ i % 2 ^ 16 := by
    rw [← Nat.pow_mul]
    interval_cases i
    exacts [h₀, h₁, h₂, h₃, h₄, h₅, h₆, h₇]
  have hmod : a.toNat % (2 ^ 16) ^ 8 = b.toNat % (2 ^ 16) ^ 8 := mod_pow_eq_of_digits hdigits
  rw [← Nat.pow_mul, Nat.mod_eq_of_lt a.isLt, Nat.mod_eq_of_lt b.isLt] at hmod
  exact BitVec.eq_of_toNat_eq hmod

/-- The first of the eight groups is not empty. -/
theorem colonGroups_ne_cons (a : BitVec 128) (s : Text) : colonGroups a ≠ ':' :: s := by
  intro h
  have hcolon (n : ℕ) : ':' ∉ Nat.toDigits 16 n :=
    notMem_toDigits (by decide) (by decide) (by decide)
  exact Nat.toDigits_ne_nil ((append_cons_inj_left (hcolon _) List.not_mem_nil).1 h).1

theorem plainText_colonGroups (a : BitVec 128) : PlainText (colonGroups a) := by
  intro c hc
  by_cases hcolon : c = ':'
  · exact .inr (.inl hcolon)
  · have hgroup {n : ℕ} (h : c ∈ Nat.toDigits 16 n) : c.isAlphanum :=
      isAlphanum_of_mem_toDigits (by decide) (by decide) h
    simp only [colonGroups, List.mem_append, List.mem_cons, hcolon, false_or] at hc
    rcases hc with hc | hc | hc | hc | hc | hc | hc | hc
    all_goals exact .inl (hgroup hc)

/-- What comes behind `::` where all groups but the last are zero. -/
def lastGroup (a : BitVec 128) : Text := if a = 0 then [] else Nat.toDigits 16 a.toNat

/-- What `inet_ntop` writes for the addresses of the examples: those with no group zero, those with
all but the last group zero, and IPv4-mapped ones. Elsewhere it would leave zeros out. -/
def writeGroups (a : BitVec 128) : Text :=
  if a.toNat < 2 ^ 16 then ':' :: ':' :: lastGroup a
  else if a.toNat / 2 ^ 32 = 0xffff then
    ':' :: ':' :: ("ffff".toList ++ ':' :: dottedQuad (a.setWidth 32))
  else colonGroups a

theorem colon_notMem_lastGroup (a : BitVec 128) : ':' ∉ lastGroup a := by
  rw [lastGroup]
  split_ifs
  · exact List.not_mem_nil
  · exact notMem_toDigits (by decide) (by decide) (by decide)

theorem lastGroup_injective : Function.Injective lastGroup := by
  intro a b h
  rw [lastGroup, lastGroup] at h
  split_ifs at h with ha hb hb
  · rw [ha, hb]
  · exact absurd h.symm Nat.toDigits_ne_nil
  · exact absurd h Nat.toDigits_ne_nil
  · exact BitVec.eq_of_toNat_eq ((toDigits_inj (by decide) (by decide)).1 h)

/-- A mapped address is known by its last four bytes. -/
theorem eq_of_mapped {a b : BitVec 128} (ha : a.toNat / 2 ^ 32 = 0xffff)
    (hb : b.toNat / 2 ^ 32 = 0xffff) (h : a.setWidth 32 = b.setWidth 32) : a = b := by
  have hmod := congrArg BitVec.toNat h
  rw [BitVec.toNat_setWidth, BitVec.toNat_setWidth] at hmod
  exact BitVec.eq_of_toNat_eq (by omega)

/-- What is written says which address it is. -/
theorem writeGroups_injective : Function.Injective writeGroups := by
  intro a b h
  have hlast (a : BitVec 128) (s : Text) : lastGroup a ≠ "ffff".toList ++ ':' :: s := by
    intro heq
    refine colon_notMem_lastGroup a ?_
    rw [heq]
    exact List.mem_append_right _ List.mem_cons_self
  have htail {s t : Text} (h : ':' :: ':' :: s = ':' :: ':' :: t) : s = t :=
    (List.cons.inj (List.cons.inj h).2).2
  rw [writeGroups, writeGroups] at h
  split_ifs at h with ha hb hb' ha' hb hb' hb hb'
  · exact lastGroup_injective (htail h)
  · exact absurd (htail h) (hlast a _)
  · exact absurd h.symm (colonGroups_ne_cons b _)
  · exact absurd (htail h).symm (hlast b _)
  · have hquad := List.append_cancel_left (htail h)
    exact eq_of_mapped ha' hb' (dottedQuad_inj.1 (List.cons.inj hquad).2)
  · exact absurd h.symm (colonGroups_ne_cons b _)
  · exact absurd h (colonGroups_ne_cons a _)
  · exact absurd h (colonGroups_ne_cons a _)
  · exact colonGroups_injective h

/-- A library that parses exactly what it writes. -/
noncomputable def plainLibc : Libc where
  inetPton4 := Function.partialInv dottedQuad
  inetPton6 := Function.partialInv writeGroups
  inetNtop6 := writeGroups

theorem plainLibc_inetPton4 (a : BitVec 32) : plainLibc.inetPton4 (dottedQuad a) = some a :=
  Function.partialInv_left (fun _ _ ↦ dottedQuad_inj.1) a

theorem plainLibc_inetPton6 (a : BitVec 128) :
    plainLibc.inetPton6 (plainLibc.inetNtop6 a) = some a :=
  Function.partialInv_left writeGroups_injective a

theorem plainText_dottedQuad (a : BitVec 32) : PlainText (dottedQuad a) := by
  intro c hc
  by_cases hdot : c = '.'
  · exact .inr (.inr hdot)
  · have hbyte {n : ℕ} (h : c ∈ decimal n) : c.isAlphanum :=
      isAlphanum_of_mem_toDigits (by decide) (by decide) h
    simp only [dottedQuad, List.mem_append, List.mem_cons, hdot, false_or] at hc
    rcases hc with hc | hc | hc | hc
    all_goals exact .inl (hbyte hc)

/-- Nothing else than what `inet_ntop` may write is written. -/
theorem plainLibc_plainText (a : BitVec 128) : PlainText (plainLibc.inetNtop6 a) := by
  have hcolons {s : Text} (hs : PlainText s) : PlainText (':' :: ':' :: s) :=
    List.forall_mem_cons.2 ⟨.inr (.inl rfl), List.forall_mem_cons.2 ⟨.inr (.inl rfl), hs⟩⟩
  show PlainText (writeGroups a)
  rw [writeGroups]
  split_ifs
  · refine hcolons fun c hc ↦ .inl ?_
    rw [lastGroup] at hc
    split_ifs at hc
    · exact absurd hc List.not_mem_nil
    · exact isAlphanum_of_mem_toDigits (by decide) (by decide) hc
  · refine hcolons (List.forall_mem_append.2 ⟨?_, List.forall_mem_cons.2 ⟨.inr (.inl rfl), ?_⟩⟩)
    · have hmapped : "ffff".toList.all Char.isAlphanum = true := by decide
      exact fun c hc ↦ .inl (List.all_eq_true.1 hmapped c hc)
    · exact plainText_dottedQuad _
  · exact plainText_colonGroups a

theorem plainLibc_colon_mem (a : BitVec 128) : ':' ∈ plainLibc.inetNtop6 a := by
  show ':' ∈ writeGroups a
  rw [writeGroups]
  split_ifs
  · exact List.mem_cons_self
  · exact List.mem_cons_self
  · exact List.mem_append_right _ List.mem_cons_self

/-- Two addresses, one from text and one from a socket address. -/
theorem text_agrees_iff_twoAddresses :
    let c := IpConstruction.ipv4OfStringPort "10.0.0.1".toList 80
    let d := IpConstruction.ipv6OfSockaddr
      { sin6Port := 80, sin6Addr := 0x20010db8000100020003000400050006, sin6ScopeId := 0 } true
    (c.build plainLibc).TextAgrees plainLibc ∧ (d.build plainLibc).TextAgrees plainLibc ∧
      (c.build plainLibc).eq (d.build plainLibc) = false := by
  intro c d
  have h := (text_agrees_iff plainLibc_inetPton4 plainLibc_inetPton6 {c, d}).2 (by
    rintro e (rfl | rfl)
    · exact ⟨⟨0x0a000001, by decide⟩, by decide⟩
    · trivial)
  exact ⟨h.1 c (.inl rfl), h.1 d (.inr rfl), rfl⟩

/-- A text that is no address is kept, and the address stored with it is `0.0.0.0`. -/
theorem localhost_text_disagrees :
    ¬ ∀ c : IpConstruction, (c.build plainLibc).TextAgrees plainLibc := by
  intro h
  obtain ⟨a, ha⟩ := (textAgrees_build_iff plainLibc_inetPton4 _).1
    (h (.ipv4OfString "localhost".toList))
  have hdot : '.' ∈ dottedQuad a := by simp [dottedQuad]
  rw [← ha] at hdot
  exact absurd hdot (by decide)

end TcpServer.Network
