import TcpServer.Network.Copy
import TcpServer.Network.SockAddr

/-!
# Local addresses

Three questions about an address are answered by comparing bytes or texts: whether it is the
loopback address of its family, whether it is in a network that is not routed to the outside, and
whether the two ends of a connection are on one host. The answers are those of the address blocks
(`isInternalAddress_iff`) and, where the texts of the addresses are faithful, of the addresses
themselves (`isSameIpOrLoopback_iff`).

`getLocalAddress` looks for an address of the host that is not the loopback one, and has that to
fall back on (`getLocalAddress_spec`). It does not always return: the assertion on the result of
`getifaddrs` is one that a release build keeps, and an interface address that is not an IP address
has no `ip()`. The model says so in its result (`Crash`), and the specification lists what becomes
of a list of interface addresses as an inductive predicate (`Selects`), whose constructors are the
ways through the loop. The addresses that the system itself lists are all rejected on the way,
because the check of the platform's families in `validateProtocolSupported` is commented out and
only the error behind it is left.
-/

namespace TcpServer.Network

open Numerals

/-! ### Blocks

A block is given by an address and the length of the prefix that its members share with it.
-/

/-- The addresses that agree with `base` in their first `prefixLength` bits. -/
def InBlock {w : ℕ} (base : BitVec w) (prefixLength : ℕ) (a : BitVec w) : Prop :=
  a >>> (w - prefixLength) = base >>> (w - prefixLength)

/-- The address `a.b.c.d`. -/
def quad (a b c d : BitVec 8) : BitVec 32 := a ++ b ++ c ++ d

theorem inBlock_iff {w : ℕ} (base : BitVec w) (prefixLength : ℕ) (a : BitVec w) :
    InBlock base prefixLength a ↔
      a.toNat >>> (w - prefixLength) = base.toNat >>> (w - prefixLength) := by
  rw [InBlock, ← BitVec.toNat_inj, BitVec.toNat_ushiftRight, BitVec.toNat_ushiftRight]

/-- `htonl(INADDR_LOOPBACK)`, as the address it stands for. -/
def inaddrLoopback : BitVec 32 := quad 127 0 0 1

/-- `in6addr_loopback`. -/
def in6addrLoopback : BitVec 128 := 1

/-! ### The tests

The tests look at the bytes of the stored address, in network order, one condition for each block.
-/

/-- The bytes of an IPv4 address in the order of the network. -/
def addressByte (address : BitVec 32) (i : ℕ) : BitVec 8 := (address >>> (8 * (3 - i))).setWidth 8

/-- The bytes of an IPv6 address in the order of the network. -/
def address6Byte (address : BitVec 128) (i : ℕ) : BitVec 8 :=
  (address >>> (8 * (15 - i))).setWidth 8

/-- `Utility::isLoopbackAddress`. -/
def isLoopbackAddress : Instance → Bool
  | .ipv4 i => i.address.sinAddr = inaddrLoopback
  | .ipv6 i => i.address.sin6Addr = in6addrLoopback
  | _ => false

/-- `Utility::isInternalAddress`. -/
def isInternalAddress : Instance → Bool
  | .ipv4 i =>
    let byte := addressByte i.address.sinAddr
    byte 0 = 10 ∨ byte 0 = 192 ∧ byte 1 = 168 ∨ byte 0 = 172 ∧ byte 1 ≥ 16 ∧ byte 1 ≤ 31 ∨
      i.address.sinAddr = inaddrLoopback
  | .ipv6 i => address6Byte i.address.sin6Addr 0 = 0xfd ∨ i.address.sin6Addr = in6addrLoopback
  | _ => false

/-- `ip()->addressAsString()`, where `ip()` is not null. -/
def addressAsString : Instance → Option Text
  | .ipv4 i => some i.friendlyAddress
  | .ipv6 i => some i.friendlyAddress
  | _ => none

/-- `isSameIpOrLoopback`, of the two addresses of a connection. -/
def isSameIpOrLoopback (localAddress remoteAddress : Instance) : Bool :=
  if remoteAddress.type = .pipe ∨ isLoopbackAddress remoteAddress then true
  else
    match addressAsString localAddress, addressAsString remoteAddress with
    | some localIp, some remoteIp => remoteIp = localIp
    | _, _ => false

theorem addressByte_toNat (a : BitVec 32) {i : ℕ} :
    (addressByte a i).toNat = a.toNat >>> (8 * (3 - i)) % 256 := by
  rw [addressByte, BitVec.toNat_setWidth, BitVec.toNat_ushiftRight]

/-- A byte of an address is a part of its number. -/
theorem addressByte_eq_iff (a : BitVec 32) (i : ℕ) (b : BitVec 8) :
    addressByte a i = b ↔ a.toNat >>> (8 * (3 - i)) % 256 = b.toNat := by
  rw [← BitVec.toNat_inj, addressByte_toNat]

/-- **What is internal.** An IPv4 address is internal if it is in one of the blocks `10.0.0.0/8`,
`172.16.0.0/12` and `192.168.0.0/16` or is `127.0.0.1`; an IPv6 address if it is in `fd00::/8` or is
`::1`; nothing else is. -/
theorem isInternalAddress_iff (a : Instance) :
    isInternalAddress a = true ↔
      match a with
      | .ipv4 i =>
        InBlock (quad 10 0 0 0) 8 i.address.sinAddr ∨
          InBlock (quad 172 16 0 0) 12 i.address.sinAddr ∨
          InBlock (quad 192 168 0 0) 16 i.address.sinAddr ∨ i.address.sinAddr = quad 127 0 0 1
      | .ipv6 i =>
        InBlock ((0xfd : BitVec 8) ++ (0 : BitVec 120)) 8 i.address.sin6Addr ∨
          i.address.sin6Addr = 1
      | _ => False := by
  cases a with
  | ipv4 i =>
    have hlt : i.address.sinAddr.toNat < 4294967296 := i.address.sinAddr.isLt
    rw [isInternalAddress, decide_eq_true_iff]
    simp only [inBlock_iff, addressByte_eq_iff, ge_iff_le, BitVec.le_def, addressByte_toNat, quad,
      inaddrLoopback, Nat.shiftRight_eq_div_pow, Nat.reduceSub, Nat.reduceMul, Nat.reducePow,
      BitVec.reduceAppend, BitVec.reduceToNat, Nat.reduceDiv]
    generalize i.address.sinAddr.toNat = n at *
    have h0 : n / 16777216 % 256 = n / 16777216 := Nat.mod_eq_of_lt (by omega)
    have h12 : n / 1048576 = 2753 ↔
        n / 16777216 = 172 ∧ 16 ≤ n / 65536 % 256 ∧ n / 65536 % 256 ≤ 31 := by omega
    have h16 : n / 65536 = 49320 ↔ n / 16777216 = 192 ∧ n / 65536 % 256 = 168 := by omega
    rw [h0, h12, h16]
    exact or_congr_right (or_left_comm)
  | ipv6 i =>
    rw [isInternalAddress, decide_eq_true_iff]
    have hlt : i.address.sin6Addr.toNat < 2 ^ 128 := i.address.sin6Addr.isLt
    have hbyte : address6Byte i.address.sin6Addr 0 = 0xfd ↔
        InBlock ((0xfd : BitVec 8) ++ (0 : BitVec 120)) 8 i.address.sin6Addr := by
      rw [inBlock_iff, ← BitVec.toNat_inj, address6Byte, BitVec.toNat_setWidth,
        BitVec.toNat_ushiftRight]
      simp only [Nat.shiftRight_eq_div_pow, Nat.reduceSub, Nat.reduceMul, Nat.reducePow,
        BitVec.reduceAppend, BitVec.reduceToNat] at hlt ⊢
      omega
    exact or_congr_left hbyte
  | pipe | envoyInternal => exact iff_of_false Bool.false_ne_true id

/-! ### One host

Two ends are compared by the text of their addresses, which has no port in it.
-/

/-- The stored addresses are the same, in their families. -/
def SameIp : Instance → Instance → Prop
  | .ipv4 i, .ipv4 j => i.address.sinAddr = j.address.sinAddr
  | .ipv6 i, .ipv6 j =>
    i.address.sin6Addr = j.address.sin6Addr ∧ i.address.sin6ScopeId = j.address.sin6ScopeId
  | _, _ => False

variable {libc : Libc}

/-- Texts that agree with what is stored are the same where the addresses are. -/
theorem addressAsString_eq_iff (h6 : ∀ a, libc.inetPton6 (libc.inetNtop6 a) = some a)
    (hplain : ∀ a, PlainText (libc.inetNtop6 a)) (hcolon : ∀ a, ':' ∈ libc.inetNtop6 a)
    {x y : Instance} (hx : x.TextAgrees libc) (hy : y.TextAgrees libc) :
    (∃ s, addressAsString x = some s ∧ addressAsString y = some s) ↔ SameIp x y := by
  have hfour (a : BitVec 32) (b : BitVec 128) (t : Text) :
      dottedQuad a ≠ libc.inetNtop6 b ++ t := fun h ↦ by
    have hmem : ':' ∈ dottedQuad a := h ▸ List.mem_append_left _ (hcolon b)
    have hdecimal (n : ℕ) : ':' ∉ decimal n := notMem_decimal (by decide) n
    simp [dottedQuad, hdecimal] at hmem
  have hinj : Function.Injective libc.inetNtop6 := fun a b h ↦
    Option.some.inj ((h6 a).symm.trans ((congrArg libc.inetPton6 h).trans (h6 b)))
  have hsome {a b : Text} : (∃ s, some a = some s ∧ some b = some s) ↔ a = b := by
    constructor
    · rintro ⟨s, ha, hb⟩
      exact Option.some.inj (ha.trans hb.symm)
    · rintro rfl
      exact ⟨a, rfl, rfl⟩
  cases x with
  | ipv4 i =>
    cases y with
    | ipv4 j =>
      rw [addressAsString, addressAsString, hsome, hx.1, hy.1, dottedQuad_inj]
      rfl
    | ipv6 j =>
      rw [addressAsString, addressAsString, hsome, hx.1, hy.1]
      exact iff_of_false (hfour _ _ _) id
    | pipe | envoyInternal => exact hy.elim
  | ipv6 i =>
    cases y with
    | ipv4 j =>
      rw [addressAsString, addressAsString, hsome, hx.1, hy.1]
      exact iff_of_false (hfour _ _ _).symm id
    | ipv6 j =>
      rw [addressAsString, addressAsString, hsome, hx.1, hy.1]
      refine ⟨fun h ↦ ?_, fun h ↦ ?_⟩
      · have hscope := renderScope_eq_of_append_eq (hplain _) (hplain _) h
        rw [hscope] at h
        exact ⟨hinj (List.append_cancel_right h), renderScope_inj.1 hscope⟩
      · rw [h.1, h.2]
    | pipe | envoyInternal => exact hy.elim
  | pipe | envoyInternal => exact hx.elim

/-- The loopback address as a remote end, or an address that is also the local one, whatever the
ports. -/
theorem isSameIpOrLoopback_iff (h6 : ∀ a, libc.inetPton6 (libc.inetNtop6 a) = some a)
    (hplain : ∀ a, PlainText (libc.inetNtop6 a)) (hcolon : ∀ a, ':' ∈ libc.inetNtop6 a)
    {localAddress remoteAddress : Instance}
    (hlocal : localAddress.type = .ip → localAddress.TextAgrees libc)
    (hremote : remoteAddress.type = .ip → remoteAddress.TextAgrees libc) :
    isSameIpOrLoopback localAddress remoteAddress = true ↔
      remoteAddress.type = .pipe ∨ isLoopbackAddress remoteAddress = true ∨
        SameIp localAddress remoteAddress := by
  rw [isSameIpOrLoopback]
  split_ifs with hearly
  · exact iff_of_true rfl (hearly.imp_right .inl)
  · rw [not_or] at hearly
    rw [or_iff_right hearly.1, or_iff_right hearly.2]
    have hnone {a : Instance} (ha : a.type ≠ .ip) : addressAsString a = none := by
      cases a with
      | ipv4 | ipv6 => exact absurd rfl ha
      | pipe | envoyInternal => rfl
    have hnot : localAddress.type ≠ .ip ∨ remoteAddress.type ≠ .ip →
        ¬ SameIp localAddress remoteAddress := by
      rintro h
      cases localAddress <;> cases remoteAddress <;> first | exact id | simp [Instance.type] at h
    rcases eq_or_ne localAddress.type .ip with hl | hl
    · rcases eq_or_ne remoteAddress.type .ip with hr | hr
      · rw [← addressAsString_eq_iff h6 hplain hcolon (hlocal hl) (hremote hr)]
        split
        · rename_i localIp remoteIp hlocalIp hremoteIp
          simp only [hlocalIp, hremoteIp, Option.some.injEq, decide_eq_true_eq]
          exact ⟨fun h ↦ ⟨localIp, rfl, h⟩, fun ⟨_, h, h'⟩ ↦ h'.trans h.symm⟩
        · rename_i hne
          refine iff_of_false Bool.false_ne_true fun ⟨s, hs, hs'⟩ ↦ hne s s hs hs'
      · rw [hnone hr]
        exact iff_of_false (by split <;> simp_all) (hnot (.inr hr))
    · rw [hnone hl]
      exact iff_of_false (by simp) (hnot (.inl hl))

theorem isSameIpOrLoopback_iff_otherPort :
    let a := Instance.ipv4 (.ofSockaddr { sinPort := 80, sinAddr := quad 10 0 0 1 })
    let b := Instance.ipv4 (.ofSockaddr { sinPort := 81, sinAddr := quad 10 0 0 1 })
    isSameIpOrLoopback a b = true := by
  intro a b
  exact (isSameIpOrLoopback_iff plainLibc_inetPton6 plainLibc_plainText plainLibc_colon_mem
    (fun _ ↦ textAgrees_ipv4_ofSockaddr _) fun _ ↦ textAgrees_ipv4_ofSockaddr _).2 (.inr (.inr rfl))

/-! ### The address of the host

The interface addresses come from the system, or from an alternate that a test may set. The loop
stops at the first address that is of the version wanted and not the loopback one.
-/

/-- `ip()->version()`, where `ip()` is not null. -/
def ipVersion : Instance → Option IpVersion
  | .ipv4 _ => some .v4
  | .ipv6 _ => some .v6
  | _ => none

/-- `supportsGetifaddrs`, on every platform but an old Android. -/
def supportsGetifaddrs : Bool := true

/-- A `SysCallIntResult`. -/
structure SysCallIntResult where
  /-- `return_value_`. -/
  returnValue : ℤ
  /-- `errno_`. -/
  errno : ℤ
deriving DecidableEq

/-- `OsSysCallsImpl::getifaddrs`: the result and the interface addresses. `alternate` is what the
alternate has answered, if one is set, and `system` what `::getifaddrs` has, an `errno` or the
list. -/
def getifaddrs (libc : Libc) (alternate : Option (SysCallIntResult × List Instance))
    (system : Except ℤ (List (Option SockaddrStorage))) : SysCallIntResult × List Instance :=
  match alternate, system with
  | some answer, _ => answer
  | none, .error errno => (⟨-1, errno⟩, [])
  | none, .ok ifaddr =>
    (⟨0, 0⟩, ifaddr.filterMap fun
      | some (.inet sin) => (addressFromSockAddr libc (.inet sin) 16 false).bind (·.toOption)
      | some (.inet6 sin6) => (addressFromSockAddr libc (.inet6 sin6) 28 true).bind (·.toOption)
      | _ => none)

/-- The two ways in which `getLocalAddress` does not return: its `RELEASE_ASSERT`, with the `errno`
of its message, and the version of an address whose `ip()` is null. -/
inductive Crash
  | releaseAssert (errno : ℤ)
  | nullIp
deriving DecidableEq

/-- The loop over the interface addresses. -/
def findInterface (version : IpVersion) : List Instance → Except Crash (Option Instance)
  | [] => .ok none
  | a :: rest =>
    if isLoopbackAddress a then findInterface version rest
    else
      match ipVersion a with
      | none => .error .nullIp
      | some v => if v = version then .ok (some a) else findInterface version rest

/-- The address that is returned where no interface has been found. -/
def defaultLocalAddress (libc : Libc) : IpVersion → Instance
  | .v4 => .ipv4 (.ofString libc "127.0.0.1".toList)
  | .v6 => .ipv6 (.ofString libc "::1".toList)

/-- `getLocalAddress`, after a call of `getifaddrs` with the result `rc`. -/
def getLocalAddress (libc : Libc) (rc : SysCallIntResult × List Instance) (version : IpVersion) :
    Except Crash Instance :=
  if supportsGetifaddrs then
    if rc.1.returnValue ≠ 0 then .error (.releaseAssert rc.1.errno)
    else (findInterface version rc.2).map (·.getD (defaultLocalAddress libc version))
  else .ok (defaultLocalAddress libc version)

/-- The interface address that is looked for. -/
def Outward (version : IpVersion) (a : Instance) : Prop :=
  isLoopbackAddress a = false ∧ ipVersion a = some version

/-- An interface address that the loop passes over. -/
def PassedOver (version : IpVersion) (a : Instance) : Prop := a.type = .ip ∧ ¬ Outward version a

/-- What becomes of a list of interface addresses: the first that is looked for, unless a pipe or an
internal address comes before it, or the default. -/
inductive Selects (libc : Libc) (version : IpVersion) : List Instance → Except Crash Instance → Prop
  | found {before after : List Instance} {a : Instance}
      (hbefore : ∀ i ∈ before, PassedOver version i)
    (ha : Outward version a) : Selects libc version (before ++ a :: after) (.ok a)
  | nullIp {before after : List Instance} {a : Instance}
      (hbefore : ∀ i ∈ before, PassedOver version i)
    (ha : a.type ≠ .ip) : Selects libc version (before ++ a :: after) (.error .nullIp)
  | default {interfaces : List Instance} (hnone : ∀ i ∈ interfaces, PassedOver version i) :
    Selects libc version interfaces (.ok (defaultLocalAddress libc version))

variable {version : IpVersion} {a : Instance} {interfaces : List Instance}

/-- The factory rejects every address, so the system's interfaces have none. -/
theorem getifaddrs_system (libc : Libc) (ifaddr : List (Option SockaddrStorage)) :
    getifaddrs libc none (.ok ifaddr) = (⟨0, 0⟩, []) := by
  refine congrArg (Prod.mk _) (List.filterMap_eq_nil_iff.2 fun entry _ ↦ ?_)
  match entry with
  | none | some (.unix _) | some (.other _) | some (.inet _) => rfl
  | some (.inet6 sin6) => rfl

/-- The default is the loopback address of its version. -/
theorem isLoopbackAddress_default (h4 : libc.inetPton4 "127.0.0.1".toList = some inaddrLoopback)
    (h6 : libc.inetPton6 "::1".toList = some in6addrLoopback) (version : IpVersion) :
    isLoopbackAddress (defaultLocalAddress libc version) = true ∧
      ipVersion (defaultLocalAddress libc version) = some version := by
  cases version with
  | v4 =>
    refine ⟨decide_eq_true ?_, rfl⟩
    show (libc.inetPton4 "127.0.0.1".toList).getD 0 = inaddrLoopback
    rw [h4]
    rfl
  | v6 =>
    refine ⟨decide_eq_true ?_, rfl⟩
    show (libc.inetPton6 "::1".toList).getD 0 = in6addrLoopback
    rw [h6]
    rfl

theorem type_eq_of_ipVersion (h : ipVersion a = some version) : a.type = .ip := by
  cases a with
  | ipv4 | ipv6 => rfl
  | pipe | envoyInternal => cases h

/-- The three things that the loop can find in an address. -/
theorem findInterface_cons (version : IpVersion) (a : Instance) (rest : List Instance) :
    (Outward version a ∧ findInterface version (a :: rest) = .ok (some a)) ∨
      (a.type ≠ .ip ∧ findInterface version (a :: rest) = .error .nullIp) ∨
      (PassedOver version a ∧ findInterface version (a :: rest) = findInterface version rest) := by
  rw [findInterface]
  split_ifs with hloopback
  · have hip : a.type = .ip := by
      cases a with
      | ipv4 | ipv6 => rfl
      | pipe | envoyInternal => cases hloopback
    exact .inr (.inr ⟨⟨hip, fun hout ↦ Bool.false_ne_true (hout.1.symm.trans hloopback)⟩, rfl⟩)
  · match hversion : ipVersion a with
    | none =>
      refine .inr (.inl ⟨?_, rfl⟩)
      cases a with
      | ipv4 | ipv6 => cases hversion
      | pipe | envoyInternal => exact AddressType.noConfusion
    | some v =>
      dsimp only
      split_ifs with hv
      · subst hv
        exact .inl ⟨⟨Bool.eq_false_iff.2 hloopback, hversion⟩, rfl⟩
      · refine .inr (.inr ⟨⟨type_eq_of_ipVersion hversion, fun hout ↦ hv ?_⟩, rfl⟩)
        exact Option.some.inj (hversion.symm.trans hout.2)

/-- What is passed over does not change what is selected. -/
theorem Selects.cons {r : Except Crash Instance} (ha : PassedOver version a)
    (h : Selects libc version interfaces r) : Selects libc version (a :: interfaces) r := by
  cases h with
  | @found before after b hbefore hout =>
    have hfound : Selects libc version ((a :: before) ++ b :: after) (.ok b) :=
      .found (List.forall_mem_cons.2 ⟨ha, hbefore⟩) hout
    exact hfound
  | @nullIp before after b hbefore hnull =>
    have hcrash : Selects libc version ((a :: before) ++ b :: after) (.error .nullIp) :=
      .nullIp (List.forall_mem_cons.2 ⟨ha, hbefore⟩) hnull
    exact hcrash
  | default hnone => exact .default (List.forall_mem_cons.2 ⟨ha, hnone⟩)

/-- What the loop finds is selected. -/
theorem selects_findInterface (libc : Libc) (version : IpVersion) (interfaces : List Instance) :
    Selects libc version interfaces
      ((findInterface version interfaces).map (·.getD (defaultLocalAddress libc version))) := by
  have hnil : ∀ i ∈ ([] : List Instance), PassedOver version i :=
    fun i hi ↦ absurd hi List.not_mem_nil
  induction interfaces with
  | nil => exact .default hnil
  | cons a rest ih =>
    rcases findInterface_cons version a rest with ⟨hout, hfind⟩ | ⟨hnull, hfind⟩ | ⟨hpass, hfind⟩
    · have hfound : Selects libc version ([] ++ a :: rest) (.ok a) := .found hnil hout
      rw [hfind]
      exact hfound
    · have hcrash : Selects libc version ([] ++ a :: rest) (.error .nullIp) := .nullIp hnil hnull
      rw [hfind]
      exact hcrash
    · rw [hfind]
      exact ih.cons hpass

/-- The loop goes on behind what it passes over. -/
theorem findInterface_append {before : List Instance} (hbefore : ∀ i ∈ before, PassedOver version i)
    (rest : List Instance) : findInterface version (before ++ rest) =
    findInterface version rest := by
  induction before with
  | nil => rfl
  | cons a before ih =>
    obtain ⟨⟨hip, hpass⟩, hbefore⟩ := List.forall_mem_cons.1 hbefore
    rcases findInterface_cons version a (before ++ rest) with ⟨hout, -⟩ | ⟨hnull, -⟩ | ⟨-, hfind⟩
    · exact absurd hout hpass
    · exact absurd hip hnull
    · exact hfind.trans (ih hbefore)

/-- What is selected is what the loop finds. -/
theorem Selects.eq {r : Except Crash Instance} (h : Selects libc version interfaces r) :
    (findInterface version interfaces).map (·.getD (defaultLocalAddress libc version)) = r := by
  cases h with
  | @found before after b hbefore hout =>
    rw [findInterface_append hbefore]
    rcases findInterface_cons version b after with ⟨-, hfind⟩ | ⟨hnull, -⟩ | ⟨hpass, -⟩
    · rw [hfind]
      rfl
    · exact absurd (type_eq_of_ipVersion hout.2) hnull
    · exact absurd hout hpass.2
  | @nullIp before after b hbefore hnull =>
    rw [findInterface_append hbefore]
    rcases findInterface_cons version b after with ⟨hout, -⟩ | ⟨-, hfind⟩ | ⟨hpass, -⟩
    · exact absurd (type_eq_of_ipVersion hout.2) hnull
    · rw [hfind]
      rfl
    · exact absurd hpass.1 hnull
  | default hnone =>
    rw [← List.append_nil interfaces, findInterface_append hnone]
    rfl

/-- **The address of the host.** `getLocalAddress` aborts if `getifaddrs` fails. Otherwise it
returns the first interface address of the version that is asked for which is not its loopback
address, and the loopback address if there is none; it dereferences a null pointer where a pipe or
an internal address comes before. What the system lists never gets there, as the factory rejects it;
only interface addresses that an alternate provides do. -/
theorem getLocalAddress_spec (h4 : libc.inetPton4 "127.0.0.1".toList = some inaddrLoopback)
    (h6 : libc.inetPton6 "::1".toList = some in6addrLoopback) (version : IpVersion) :
    (isLoopbackAddress (defaultLocalAddress libc version) = true ∧
        ipVersion (defaultLocalAddress libc version) = some version) ∧
      (∀ rc interfaces r, rc.returnValue = 0 →
        (getLocalAddress libc (rc, interfaces) version = r ↔ Selects libc version interfaces r)) ∧
      (∀ rc interfaces, rc.returnValue ≠ 0 →
        getLocalAddress libc (rc, interfaces) version = .error (.releaseAssert rc.errno)) ∧
      ∀ system, getLocalAddress libc (getifaddrs libc none system) version =
        match system with
        | .error errno => .error (.releaseAssert errno)
        | .ok _ => .ok (defaultLocalAddress libc version) := by
  refine ⟨isLoopbackAddress_default h4 h6 version, fun rc interfaces r hrc ↦ ?_,
    fun rc interfaces hrc ↦ if_pos hrc, fun system ↦ ?_⟩
  · have hfind : getLocalAddress libc (rc, interfaces) version =
        (findInterface version interfaces).map (·.getD (defaultLocalAddress libc version)) :=
      if_neg (not_not.2 hrc)
    rw [hfind]
    exact ⟨fun h ↦ h ▸ selects_findInterface libc version interfaces, Selects.eq⟩
  · match system with
    | .error errno => rfl
    | .ok ifaddr =>
      rw [getifaddrs_system]
      rfl

/-- A library that knows the two loopback addresses. -/
def loopbackLibc : Libc where
  inetPton4 s := if s = "127.0.0.1".toList then some inaddrLoopback else none
  inetPton6 s := if s = "::1".toList then some in6addrLoopback else none
  inetNtop6 _ := []

/-- An alternate lists the loopback address and another, and the system lists what is rejected. -/
theorem getLocalAddress_spec_alternate :
    let loopback := Instance.ipv4 (.ofString loopbackLibc "127.0.0.1".toList)
    let outward := Instance.ipv4 (.ofSockaddr { sinPort := 0, sinAddr := quad 10 0 0 1 })
    getLocalAddress loopbackLibc (⟨0, 0⟩, [loopback, outward]) .v4 = .ok outward ∧
      getLocalAddress loopbackLibc
        (getifaddrs loopbackLibc none (.ok [some
          (.inet { sinPort := 0, sinAddr := quad 10 0 0 1 })])) .v4 =
          .ok loopback := by
  intro loopback outward
  have h4 : loopbackLibc.inetPton4 "127.0.0.1".toList = some inaddrLoopback := rfl
  have hspec := getLocalAddress_spec h4 rfl .v4
  have hfound : Selects loopbackLibc .v4 ([loopback] ++ outward :: []) (.ok outward) := by
    refine .found (fun i hi ↦ ?_) ⟨by decide, rfl⟩
    obtain rfl := List.mem_singleton.1 hi
    exact ⟨rfl, fun hout ↦ by cases hout.1⟩
  exact ⟨(hspec.2.1 ⟨0, 0⟩ _ _ rfl).2 hfound, hspec.2.2.2 _⟩

end TcpServer.Network
