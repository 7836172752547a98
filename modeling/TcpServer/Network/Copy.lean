import TcpServer.Network.AddressText

/-!
# Copies of IP addresses

`copyInternetAddressAndPort` and `getAddressWithPort` build the new instance from the text of the
old one. The text of a scoped address ends with its zone, which `inet_pton` does not read, and the
flag `v6only` is not in the text. So a copy has the default flag and no scope (`content_copy`), and
it is a copy only of an address without a scope that has the default flag (`copies_preserve_iff`).

What an address is (`IpContent`) is its family, address and port, and for IPv6 its scope and flag.
The text says the first three and the scope, but in a form that is not parsed; so from the text the
address can be rebuilt only where scope and flag have their defaults. Everything is stated for
addresses made from socket addresses, whose texts agree with what they store.
-/

namespace TcpServer.Network

/-- `IpVersion`. -/
inductive IpVersion
  | v4
  | v6
deriving DecidableEq

/-- An `Address::Ip`. -/
inductive Ip
  | v4 (i : Ipv4Instance)
  | v6 (i : Ipv6Instance)
deriving DecidableEq

namespace Ip

/-- `version()`. -/
def version : Ip → IpVersion
  | v4 _ => .v4
  | v6 _ => .v6

/-- `addressAsString()`. -/
def addressAsString : Ip → Text
  | v4 i => i.friendlyAddress
  | v6 i => i.friendlyAddress

/-- `port()`. -/
def port : Ip → BitVec 32
  | v4 i => i.address.sinPort.setWidth 32
  | v6 i => i.address.sin6Port.setWidth 32

end Ip

/-- `ip()`. -/
def Instance.ip : Instance → Option Ip
  | .ipv4 i => some (.v4 i)
  | .ipv6 i => some (.v6 i)
  | .pipe _ | .envoyInternal _ => none

/-- `copyInternetAddressAndPort`. -/
def copyInternetAddressAndPort (libc : Libc) (ip : Ip) : Instance :=
  if ip.version = .v4 then .ipv4 (.ofStringPort libc ip.addressAsString ip.port)
  else .ipv6 (.ofStringPort libc ip.addressAsString ip.port true)

/-- There is no result where `ip()` is null. -/
def getAddressWithPort (libc : Libc) (address : Instance) (port : BitVec 32) : Option Instance :=
  address.ip.map fun ip ↦
    match ip.version with
    | .v4 => .ipv4 (.ofStringPort libc ip.addressAsString port)
    | .v6 => .ipv6 (.ofStringPort libc ip.addressAsString port true)

/-! ### What is copied

The content of a copy is computed from the text alone (`rebuilt`). Comparing it with the content of
the original leaves a condition on the scope and the flag.
-/

/-- What an IP address is: an IPv4 address has no scope and no flag. -/
inductive IpContent
  | v4 (address : BitVec 32) (port : ℕ)
  | v6 (address : BitVec 128) (port : ℕ) (scopeId : BitVec 32) (v6only : Bool)
deriving DecidableEq

namespace IpContent

/-- The content with another port. -/
def setPort (port : ℕ) : IpContent → IpContent
  | v4 address _ => v4 address port
  | v6 address _ scopeId v6only => v6 address port scopeId v6only

end IpContent

/-- What an IP address is. -/
def Ip.content : Ip → IpContent
  | v4 i => .v4 i.address.sinAddr i.port
  | v6 i => .v6 i.address.sin6Addr i.port i.address.sin6ScopeId i.v6only

/-- A socket address that an IP address is made from. -/
inductive IpSockaddr
  | v4 (address : SockaddrIn)
  | v6 (address : SockaddrIn6) (v6only : Bool)

namespace IpSockaddr

/-- The IP address that is made. -/
def ip (libc : Libc) : IpSockaddr → Ip
  | v4 address => .v4 (.ofSockaddr address)
  | v6 address v6only => .v6 (.ofSockaddr libc address v6only)

/-- The same as an instance. -/
def build (libc : Libc) : IpSockaddr → Instance
  | v4 address => .ipv4 (.ofSockaddr address)
  | v6 address v6only => .ipv6 (.ofSockaddr libc address v6only)

/-- Nothing that is not in the text, and no zone in the text. -/
def Plain : IpSockaddr → Prop
  | v4 _ => True
  | v6 address v6only => address.sin6ScopeId = 0 ∧ v6only = true

/-- What the text of the address says, with another port. -/
def rebuilt (port : ℕ) : IpSockaddr → IpContent
  | v4 address => .v4 address.sinAddr port
  | v6 address _ => .v6 (if address.sin6ScopeId = 0 then address.sin6Addr else 0) port 0 true

end IpSockaddr

/-- The copy is the same address, and one with another port differs in the port alone. -/
structure CopiesPreserve (libc : Libc) (s : IpSockaddr) : Prop where
  /-- The copy has the content of the original. -/
  copy : (copyInternetAddressAndPort libc (s.ip libc)).ip.map Ip.content = some (s.ip libc).content
  /-- It is equal to the original. -/
  copy_eq : (copyInternetAddressAndPort libc (s.ip libc)).eq (s.build libc) = true
  /-- A copy with another port has that port, and the rest of the content. -/
  withPort : ∀ port : BitVec 32, port.toNat ≤ 65535 →
    ∃ c, getAddressWithPort libc (s.build libc) port = some c ∧
      c.ip.map Ip.content = some ((s.ip libc).content.setPort port.toNat)

/-- What is documented of `inet_pton` and `inet_ntop`: the one inverts the other, and dotted quads,
and rejects zones; what the other writes is a text of digits, colons and points, and not empty. -/
structure Libc.Inverts (libc : Libc) : Prop where
  /-- `inet_pton` reads dotted quads. -/
  pton4 : ∀ a, libc.inetPton4 (dottedQuad a) = some a
  /-- It inverts `inet_ntop`. -/
  pton6 : ∀ a, libc.inetPton6 (libc.inetNtop6 a) = some a
  /-- It rejects what has a zone. -/
  pton6_zone : ∀ text : Text, '%' ∈ text → libc.inetPton6 text = none
  /-- `inet_ntop` writes plain text. -/
  plain : ∀ a, PlainText (libc.inetNtop6 a)
  /-- It writes something. -/
  nonempty : ∀ a, libc.inetNtop6 a ≠ []

variable {libc : Libc}

/-- The IPv4 address that is built from the text of an address, with another port. -/
theorem content_ofStringPort_v4 (h : libc.Inverts) (address : SockaddrIn) (port : BitVec 32) :
    (Ip.v4 (.ofStringPort libc (Ipv4Instance.ofSockaddr address).friendlyAddress port)).content =
      .v4 address.sinAddr (port.setWidth 16).toNat := by
  have htext : (Ipv4Instance.ofSockaddr address).friendlyAddress = dottedQuad address.sinAddr :=
    Ipv4Instance.sockaddrToString_eq address
  have hparsed : (libc.inetPton4 (cStr (dottedQuad address.sinAddr))).getD 0 = address.sinAddr := by
    rw [cStr_of_notMem (nul_notMem_dottedQuad _), h.pton4, Option.getD_some]
  rw [htext]
  show IpContent.v4 ((libc.inetPton4 (cStr (dottedQuad address.sinAddr))).getD 0) _ = _
  rw [hparsed]
  rfl

/-- The IPv6 address that is built from the text of an address: the zone makes it another one. -/
theorem content_ofStringPort_v6 (h : libc.Inverts) (address : SockaddrIn6) (v6only : Bool)
    (port : BitVec 32) :
    (Ip.v6 (.ofStringPort libc (Ipv6Instance.ofSockaddr libc address v6only).friendlyAddress port
      true)).content =
      .v6 (if address.sin6ScopeId = 0 then address.sin6Addr else 0) (port.setWidth 16).toNat 0
        true := by
  have htext : (Ipv6Instance.ofSockaddr libc address v6only).friendlyAddress =
      libc.inetNtop6 address.sin6Addr ++ renderScope address.sin6ScopeId :=
    makeFriendlyAddress_eq libc address
  have hplain := h.plain address.sin6Addr
  have hempty : (libc.inetNtop6 address.sin6Addr ++ renderScope address.sin6ScopeId).isEmpty =
      false := by
    rw [List.isEmpty_eq_false_iff]
    exact List.append_ne_nil_of_left_ne_nil (h.nonempty _) _
  rw [htext]
  show IpContent.v6 (if _ then 0 else (libc.inetPton6 (cStr _)).getD 0) _ _ _ = _
  rw [hempty, if_neg Bool.false_ne_true]
  have hnul : nul ∉ libc.inetNtop6 address.sin6Addr := hplain.notMem (by decide)
  by_cases hscope : address.sin6ScopeId = 0
  · rw [if_pos hscope, renderScope, if_neg (not_not.2 hscope), List.append_nil, cStr_of_notMem hnul,
      h.pton6, Option.getD_some]
    rfl
  · -- `inet_pton` fails, and what is copied is the address that was there before.
    have hrender : renderScope address.sin6ScopeId = '%' :: decimal address.sin6ScopeId.toNat :=
      if_pos hscope
    have hzone : '%' ∈ libc.inetNtop6 address.sin6Addr ++ renderScope address.sin6ScopeId := by
      rw [hrender]
      exact List.mem_append_right _ List.mem_cons_self
    have hnul : nul ∉ libc.inetNtop6 address.sin6Addr ++ renderScope address.sin6ScopeId := by
      rw [hrender, List.mem_append, List.mem_cons, not_or, not_or]
      exact ⟨hnul, by decide, notMem_decimal (by decide) _⟩
    rw [if_neg hscope, cStr_of_notMem hnul, h.pton6_zone _ hzone]
    rfl

/-- What is read back from the text, with another port. -/
theorem content_getAddressWithPort (h : libc.Inverts) (s : IpSockaddr) (port : BitVec 32) :
    ∃ c, getAddressWithPort libc (s.build libc) port = some c ∧
      c.ip.map Ip.content = some (s.rebuilt (port.setWidth 16).toNat) := by
  cases s with
  | v4 address => exact ⟨_, rfl, congrArg some (content_ofStringPort_v4 h address port)⟩
  | v6 address v6only =>
    exact ⟨_, rfl, congrArg some (content_ofStringPort_v6 h address v6only port)⟩

/-- A copy is the address with the port it has. -/
theorem getAddressWithPort_port (libc : Libc) (s : IpSockaddr) :
    getAddressWithPort libc (s.build libc) (s.ip libc).port =
      some (copyInternetAddressAndPort libc (s.ip libc)) := by
  cases s <;> rfl

theorem setPort_content (libc : Libc) (s : IpSockaddr) :
    (s.ip libc).content.setPort ((s.ip libc).port.setWidth 16).toNat = (s.ip libc).content := by
  cases s with
  | v4 address =>
    show IpContent.v4 _ ((address.sinPort.setWidth 32).setWidth 16).toNat = .v4 _ _
    rw [BitVec.setWidth_setWidth_of_le _ (by decide), BitVec.setWidth_eq]
    rfl
  | v6 address v6only =>
    show IpContent.v6 _ ((address.sin6Port.setWidth 32).setWidth 16).toNat _ _ = .v6 _ _ _ _
    rw [BitVec.setWidth_setWidth_of_le _ (by decide), BitVec.setWidth_eq]
    rfl

/-- The text says what the address is, or there is more to it. -/
theorem rebuilt_eq_iff (libc : Libc) (s : IpSockaddr) (port : ℕ) :
    s.rebuilt port = (s.ip libc).content.setPort port ↔ s.Plain := by
  cases s with
  | v4 address => exact iff_of_true rfl trivial
  | v6 address v6only =>
    show IpContent.v6 _ _ _ _ = .v6 address.sin6Addr port address.sin6ScopeId v6only ↔ _
    constructor
    · intro heq
      injection heq with _ _ hscope hflag
      exact ⟨hscope.symm, hflag.symm⟩
    · rintro ⟨hscope, hflag⟩
      rw [if_pos hscope, hscope, hflag]

/-- `operator==` compares no more than what the addresses are. -/
theorem eq_of_content_eq {x y : Instance} {c : IpContent} (hx : x.ip.map Ip.content = some c)
    (hy : y.ip.map Ip.content = some c) : x.eq y = true := by
  cases x with
  | ipv4 i =>
    cases y with
    | ipv4 j =>
      have hcontent : IpContent.v4 i.address.sinAddr i.port = .v4 j.address.sinAddr j.port :=
        Option.some.inj (hx.trans hy.symm)
      injection hcontent with haddress hport
      exact decide_eq_true ⟨haddress, hport⟩
    | ipv6 j => exact absurd (Option.some.inj (hx.trans hy.symm)) (by rintro ⟨⟩)
    | pipe | envoyInternal => exact absurd hy.symm (Option.some_ne_none _)
  | ipv6 i =>
    cases y with
    | ipv4 j => exact absurd (Option.some.inj (hx.trans hy.symm)) (by rintro ⟨⟩)
    | ipv6 j =>
      have hcontent : IpContent.v6 i.address.sin6Addr i.port i.address.sin6ScopeId i.v6only =
          .v6 j.address.sin6Addr j.port j.address.sin6ScopeId j.v6only :=
        Option.some.inj (hx.trans hy.symm)
      injection hcontent with haddress hport hscope
      exact decide_eq_true ⟨haddress, hport, hscope⟩
    | pipe | envoyInternal => exact absurd hy.symm (Option.some_ne_none _)
  | pipe | envoyInternal => exact absurd hx.symm (Option.some_ne_none _)

/-- The content of a copy is what the text says. -/
theorem content_copy (h : libc.Inverts) (s : IpSockaddr) :
    (copyInternetAddressAndPort libc (s.ip libc)).ip.map Ip.content =
      some (s.rebuilt ((s.ip libc).port.setWidth 16).toNat) := by
  obtain ⟨c, hc, hcontent⟩ := content_getAddressWithPort h s (s.ip libc).port
  rw [getAddressWithPort_port, Option.some_inj] at hc
  rw [hc, hcontent]

/-- A copy is a copy of what the text says, and of nothing more. -/
theorem content_copy_eq_iff (h : libc.Inverts) (s : IpSockaddr) :
    (copyInternetAddressAndPort libc (s.ip libc)).ip.map Ip.content = some (s.ip libc).content ↔
      s.Plain := by
  have hiff := rebuilt_eq_iff libc s ((s.ip libc).port.setWidth 16).toNat
  rw [setPort_content] at hiff
  rw [content_copy h, Option.some_inj, hiff]

/-- **Copies preserve an address** if and only if it has no scope and the default flag. -/
theorem copies_preserve_iff (h : libc.Inverts) (s : IpSockaddr) :
    CopiesPreserve libc s ↔ s.Plain := by
  refine ⟨fun hpreserve ↦ (content_copy_eq_iff h s).1 hpreserve.copy, fun hplain ↦ ?_⟩
  have hcopy := (content_copy_eq_iff h s).2 hplain
  have hself : (s.build libc).ip.map Ip.content = some (s.ip libc).content := by cases s <;> rfl
  refine ⟨hcopy, eq_of_content_eq hcopy hself, fun port hport ↦ ?_⟩
  obtain ⟨c, hc, hcontent⟩ := content_getAddressWithPort h s port
  have hwidth : (port.setWidth 16).toNat = port.toNat := by
    rw [BitVec.toNat_setWidth]
    exact Nat.mod_eq_of_lt (Nat.lt_succ_of_le hport)
  rw [hwidth, (rebuilt_eq_iff libc s port.toNat).2 hplain] at hcontent
  exact ⟨c, hc, hcontent⟩

/-! ### A C library that inverts

The library of the examples satisfies what is documented.
-/

theorem plainLibc_inverts : plainLibc.Inverts where
  pton4 := plainLibc_inetPton4
  pton6 := plainLibc_inetPton6
  pton6_zone text hzone := by
    refine dif_neg ?_
    rintro ⟨a, rfl⟩
    exact (plainLibc_plainText a).notMem (by decide) hzone
  plain := plainLibc_plainText
  nonempty a := List.ne_nil_of_mem (plainLibc_colon_mem a)

/-- The loopback address with the default flag is preserved. -/
theorem copies_preserve_iff_loopback :
    CopiesPreserve plainLibc (.v6 { sin6Port := 443, sin6Addr := 1, sin6ScopeId := 0 } true) :=
  (copies_preserve_iff plainLibc_inverts _).2 ⟨rfl, rfl⟩

/-- The copy of an address of a link is `::`, and that of a dual-stack address is not dual-stack. -/
theorem scoped_copy_differs :
    ¬ CopiesPreserve plainLibc
        (.v6 { sin6Port := 443, sin6Addr := 0xfe800001000200030004000500060007, sin6ScopeId := 2 }
          true) ∧
      ¬ CopiesPreserve plainLibc (.v6 { sin6Port := 443, sin6Addr := 1, sin6ScopeId := 0 }
        false) := by
  constructor
  · intro h
    have hscope := ((content_copy_eq_iff plainLibc_inverts _).1 h.copy).1
    exact absurd hscope (by decide)
  · intro h
    have hflag := ((content_copy_eq_iff plainLibc_inverts _).1 h.copy).2
    exact absurd hflag (by decide)

end TcpServer.Network
