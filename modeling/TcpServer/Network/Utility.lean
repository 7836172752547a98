import TcpServer.Network.SockAddr

/-!
# Parsing an address and a port

`parseInternetAddressAndPortNoThrow` takes a text apart at the last `]:`, if it starts with a
bracket, or else at the last colon. The text of an address is taken apart where it was put together,
so what reaches the factory is the socket address that was rendered (`parseVia_asString_ipv4`,
`parseVia_asString_ipv6`), and nothing reaches it from a text of another form
(`wellFormed_of_parseVia`).

The factory then rejects it, as it does everything, and the parser has no address for any text
(`parsedCorrectly_iff`). With a factory that accepts addresses every one makes the round trip
(`ParsedCorrectly.of_accepting`).

What `inet_pton`, `inet_ntop`, `getaddrinfo` and `absl::SimpleAtoi` do is not under the source, so
they are parameters. The results about what reaches the factory suppose that the library reads what
it has written; that the factory rejects everything needs no supposition at all.
-/

namespace TcpServer.Network

open Numerals

/-- `std::string::rfind`. -/
def rfind (pattern : Text) : Text → Option ℕ
  | [] => if pattern = [] then some 0 else none
  | c :: s =>
    match rfind pattern s with
    | some i => some (i + 1)
    | none => if pattern.isPrefixOf (c :: s) then some 0 else none

/-- What parsing takes from the C library, and `absl::SimpleAtoi` for a `uint64_t`. `getaddrinfo`
has the address of the first entry or an error number. -/
structure ParseLibc extends Libc where
  /-- `getaddrinfo` for a text with a zone. -/
  getaddrinfo : Text → Except ℤ SockaddrIn6
  /-- `absl::SimpleAtoi` to a `uint64_t`, if the text is a number that fits. -/
  simpleAtoi : Text → Option (BitVec 64)

variable (libc : ParseLibc)

/-- The socket address of an IPv4 text. -/
def parseV4Address (ipAddress : Text) (port : BitVec 16) : StatusOr SockaddrIn :=
  match libc.inetPton4 (cStr ipAddress) with
  | none => .error (.failedPrecondition "failed parsing ipv4")
  | some sinAddr => .ok { sinPort := port, sinAddr }

/-- The socket address of an IPv6 text. A zone is left to `getaddrinfo`. -/
def parseV6Address (ipAddress : Text) (port : BitVec 16) : StatusOr SockaddrIn6 :=
  match rfind ['%'] ipAddress with
  | none =>
    match libc.inetPton6 (cStr ipAddress) with
    | none => .error (.failedPrecondition "failed parsing ipv6")
    | some sin6Addr => .ok { sin6Port := port, sin6Addr, sin6ScopeId := 0 }
  | some _ =>
    match libc.getaddrinfo (cStr ipAddress) with
    | .error rc => .error (.failedPrecondition s!"getaddrinfo error: {rc}")
    | .ok sa6 => .ok { sa6 with sin6Port := port }

/-- `Utility::instanceOrNull`. An error is dropped. -/
def instanceOrNull (address : StatusOr Instance) : Option Instance := address.toOption

/-- `port_str` as a port, if it is one. -/
def parsePort (portStr : Text) : Option (BitVec 16) :=
  if portStr.isEmpty then none
  else
    match libc.simpleAtoi portStr with
    | none => none
    | some port64 => if port64.toNat > 65535 then none else some (port64.setWidth 16)

/-- `parseInternetAddressAndPortNoThrow` with the two functions of the factory as parameters. -/
def parseInternetAddressAndPortVia (createIpv4 : SockaddrIn → StatusOr Instance)
    (createIpv6 : SockaddrIn6 → Bool → StatusOr Instance) (ipAddress : Text) (v6only : Bool) :
    Option Instance :=
  match ipAddress.head? with
  | none => none
  | some c =>
    if c = '[' then
      match rfind "]:".toList ipAddress with
      | none => none
      | some pos =>
        let ipStr := (ipAddress.drop 1).take (pos - 1)
        let portStr := ipAddress.drop (pos + 2)
        match parsePort libc portStr with
        | none => none
        | some port =>
          match parseV6Address libc ipStr port with
          | .ok sa6 => instanceOrNull (createIpv6 sa6 v6only)
          | .error _ => none
    else
      match rfind [':'] ipAddress with
      | none => none
      | some pos =>
        let ipStr := ipAddress.take pos
        let portStr := ipAddress.drop (pos + 1)
        match parsePort libc portStr with
        | none => none
        | some port =>
          match parseV4Address libc ipStr port with
          | .ok sa4 => instanceOrNull (createIpv4 sa4)
          | .error _ => none

/-- `Utility::parseInternetAddressAndPortNoThrow`, with the two functions of the factory. -/
def parseInternetAddressAndPortNoThrow (ipAddress : Text) (v6only : Bool) : Option Instance :=
  parseInternetAddressAndPortVia libc createIpv4Instance (createIpv6Instance libc.toLibc) ipAddress
    v6only

/-! ### What reaches the factory

The last colon of `v4:port` is the one in front of the port, and so is that of the last `]:` in
`[v6]:port`, as neither an address nor a port has such a character in it.
-/

theorem rfind_eq_none {c : Char} {pattern s : Text} (h : c ∉ s) :
    rfind (c :: pattern) s = none := by
  induction s with
  | nil => rfl
  | cons d s ih =>
    have h := not_or.1 (List.mem_cons.not.1 h)
    have hpre : ¬ (c :: pattern).isPrefixOf (d :: s) := fun h' ↦
      h.1 (List.cons_prefix_cons.1 (List.isPrefixOf_iff_prefix.1 h')).1
    rw [rfind, ih h.2]
    exact if_neg hpre

/-- The last occurrence, when the pattern does not occur behind its beginning. -/
theorem rfind_append {c : Char} {pattern s : Text} (x : Text) (h : c ∉ pattern ++ s) :
    rfind (c :: pattern) (x ++ c :: (pattern ++ s)) = some x.length := by
  induction x with
  | nil =>
    have hpre : (c :: pattern).isPrefixOf (c :: (pattern ++ s)) :=
      List.isPrefixOf_iff_prefix.2 (List.prefix_append (c :: pattern) s)
    rw [List.nil_append, rfind, rfind_eq_none h]
    exact if_pos hpre
  | cons d x ih =>
    rw [List.cons_append, rfind, ih]
    rfl

/-- What was found is there. -/
theorem eq_of_rfind {pattern s : Text} {i : ℕ} (h : rfind pattern s = some i) :
    s = s.take i ++ (pattern ++ s.drop (i + pattern.length)) := by
  have hhere {s : Text} (hpre : pattern <+: s) : s = pattern ++ s.drop (0 + pattern.length) := by
    obtain ⟨t, rfl⟩ := hpre
    rw [Nat.zero_add, List.drop_left]
  induction s generalizing i with
  | nil =>
    rw [rfind] at h
    split_ifs at h with hnil
    obtain rfl := Option.some.inj h
    exact hhere (hnil ▸ List.nil_prefix)
  | cons c s ih =>
    rw [rfind] at h
    split at h
    · obtain rfl := Option.some.inj h
      rename_i j hj
      rw [List.take_succ_cons, List.cons_append, Nat.succ_add, List.drop_succ_cons, ← ih hj]
    · split_ifs at h with hpre
      obtain rfl := Option.some.inj h
      exact hhere (List.isPrefixOf_iff_prefix.1 hpre)

/-- A text of the form `v4:port` or `[v6]:port`. -/
def WellFormed (s : Text) : Prop :=
  ∃ ip portStr : Text, ∃ port, parsePort libc portStr = some port ∧
    ((s = ip ++ ':' :: portStr ∧ ∃ sa4, parseV4Address libc ip port = .ok sa4) ∨
      (s = '[' :: ip ++ ']' :: ':' :: portStr ∧ ∃ sa6, parseV6Address libc ip port = .ok sa6))

section

variable {libc : ParseLibc}

/-- A port is read back. -/
theorem parsePort_decimal (hatoi : ∀ n : BitVec 64, libc.simpleAtoi (decimal n.toNat) = some n)
    (port : BitVec 16) : parsePort libc (decimal port.toNat) = some port := by
  have hport : (port.setWidth 64).toNat = port.toNat := by
    rw [BitVec.toNat_setWidth]
    omega
  have hne : ¬ (decimal port.toNat).isEmpty := by
    rw [List.isEmpty_iff]
    exact Nat.toDigits_ne_nil
  have hback := hatoi (port.setWidth 64)
  rw [hport] at hback
  rw [parsePort, if_neg hne, hback]
  dsimp only
  rw [if_neg (by omega), BitVec.setWidth_setWidth_of_le _ (by decide), BitVec.setWidth_eq]

/-- A text without a bracket is taken apart at its last colon. -/
theorem parseVia_colon (createIpv4 : SockaddrIn → StatusOr Instance)
    (createIpv6 : SockaddrIn6 → Bool → StatusOr Instance) {ip portStr : Text} {port : BitVec 16}
    (hbracket : '[' ∉ ip ++ ':' :: portStr) (hcolon : ':' ∉ portStr)
    (hport : parsePort libc portStr = some port) {sa4 : SockaddrIn}
    (hsa4 : parseV4Address libc ip port = .ok sa4) (v6only : Bool) :
    parseInternetAddressAndPortVia libc createIpv4 createIpv6 (ip ++ ':' :: portStr) v6only =
      instanceOrNull (createIpv4 sa4) := by
  have hpos : rfind [':'] (ip ++ ':' :: portStr) = some ip.length := rfind_append ip hcolon
  have htake : (ip ++ ':' :: portStr).take ip.length = ip := List.take_left
  have hdrop : (ip ++ ':' :: portStr).drop (ip.length + 1) = portStr := by
    rw [List.drop_append, Nat.add_sub_cancel_left, List.drop_eq_nil_of_le (by omega)]
    rfl
  rw [parseInternetAddressAndPortVia]
  split
  · rename_i hnil
    exact absurd (List.head?_eq_none_iff.1 hnil) (by simp)
  · rename_i c hc
    have hne : c ≠ '[' := fun h ↦ hbracket (h ▸ List.mem_of_mem_head? hc)
    rw [if_neg hne, hpos]
    dsimp only
    rw [htake, hdrop, hport]
    dsimp only
    rw [hsa4]

/-- A text with a bracket is taken apart at the last `]:`. -/
theorem parseVia_bracket (createIpv4 : SockaddrIn → StatusOr Instance)
    (createIpv6 : SockaddrIn6 → Bool → StatusOr Instance) {ip portStr : Text} {port : BitVec 16}
    (hbracket : ']' ∉ portStr) (hport : parsePort libc portStr = some port) {sa6 : SockaddrIn6}
    (hsa6 : parseV6Address libc ip port = .ok sa6) (v6only : Bool) :
    parseInternetAddressAndPortVia libc createIpv4 createIpv6 ('[' :: ip ++ ']' :: ':' :: portStr)
        v6only = instanceOrNull (createIpv6 sa6 v6only) := by
  have hnot : ']' ∉ [':'] ++ portStr := by
    rw [List.singleton_append, List.mem_cons, not_or]
    exact ⟨by decide, hbracket⟩
  have hpos : rfind "]:".toList ('[' :: ip ++ ']' :: ':' :: portStr) = some (ip.length + 1) :=
    rfind_append ('[' :: ip) hnot
  have htake : (('[' :: ip ++ ']' :: ':' :: portStr).drop 1).take (ip.length + 1 - 1) = ip :=
    List.take_left
  have hdrop : ('[' :: ip ++ ']' :: ':' :: portStr).drop (ip.length + 1 + 2) = portStr := by
    rw [List.drop_append, List.length_cons, Nat.add_sub_cancel_left,
      List.drop_eq_nil_of_le (by rw [List.length_cons]; omega)]
    rfl
  rw [parseInternetAddressAndPortVia]
  show (if '[' = '[' then _ else _) = _
  rw [if_pos rfl, hpos]
  dsimp only
  rw [htake, hdrop, hport]
  dsimp only
  rw [hsa6]

/-- **The text of an IPv4 address** leads back to the socket address. -/
theorem parseVia_asString_ipv4 (createIpv4 : SockaddrIn → StatusOr Instance)
    (createIpv6 : SockaddrIn6 → Bool → StatusOr Instance)
    (h4 : ∀ a, libc.inetPton4 (dottedQuad a) = some a)
    (hatoi : ∀ n : BitVec 64, libc.simpleAtoi (decimal n.toNat) = some n) (sin : SockaddrIn)
    (v6only : Bool) :
    parseInternetAddressAndPortVia libc createIpv4 createIpv6
        (Instance.ipv4 (.ofSockaddr sin)).asString v6only = instanceOrNull (createIpv4 sin) := by
  have hagrees : Instance.TextAgrees libc.toLibc (.ipv4 (.ofSockaddr sin)) :=
    textAgrees_ipv4_ofSockaddr sin
  have htext : (Instance.ipv4 (.ofSockaddr sin)).asString =
      dottedQuad sin.sinAddr ++ ':' :: decimal sin.sinPort.toNat := hagrees.2
  have hparse : parseV4Address libc (dottedQuad sin.sinAddr) sin.sinPort = .ok sin := by
    rw [parseV4Address, cStr_of_notMem (nul_notMem_dottedQuad _), h4]
  rw [htext]
  exact parseVia_colon createIpv4 createIpv6 (bracket_notMem _ _)
    (notMem_decimal (by decide) _) (parsePort_decimal hatoi _) hparse v6only

/-- **The text of an IPv6 address** without a zone leads back to the socket address. -/
theorem parseVia_asString_ipv6 (createIpv4 : SockaddrIn → StatusOr Instance)
    (createIpv6 : SockaddrIn6 → Bool → StatusOr Instance)
    (h6 : ∀ a, libc.inetPton6 (libc.inetNtop6 a) = some a)
    (hplain : ∀ a, PlainText (libc.inetNtop6 a))
    (hatoi : ∀ n : BitVec 64, libc.simpleAtoi (decimal n.toNat) = some n) {sin6 : SockaddrIn6}
    (hscope : sin6.sin6ScopeId = 0) (v6only v6only' : Bool) :
    parseInternetAddressAndPortVia libc createIpv4 createIpv6
        (Instance.ipv6 (.ofSockaddr libc.toLibc sin6 v6only)).asString v6only' =
      instanceOrNull (createIpv6 sin6 v6only') := by
  have htext : (Instance.ipv6 (.ofSockaddr libc.toLibc sin6 v6only)).asString =
      '[' :: libc.inetNtop6 sin6.sin6Addr ++ ']' :: ':' :: decimal sin6.sin6Port.toNat := by
    have hagrees : Instance.TextAgrees libc.toLibc (.ipv6 (.initHelper libc.toLibc sin6 v6only)) :=
      textAgrees_ipv6_initHelper sin6 v6only
    have h := hagrees.2
    rwa [show (Ipv6Instance.initHelper libc.toLibc sin6 v6only).address = sin6 from rfl, hscope,
      show renderScope 0 = [] from rfl, List.append_nil] at h
  have hparse : parseV6Address libc (libc.inetNtop6 sin6.sin6Addr) sin6.sin6Port = .ok sin6 := by
    rw [parseV6Address, rfind_eq_none ((hplain _).notMem (by decide))]
    dsimp only
    rw [cStr_of_notMem ((hplain _).notMem (by decide)), h6]
    dsimp only
    rw [← hscope]
  rw [htext]
  exact parseVia_bracket createIpv4 createIpv6 (notMem_decimal (by decide) _)
    (parsePort_decimal hatoi _) hparse v6only'

/-- Whatever the factory, a text that leads to an address has one of the two forms. -/
theorem wellFormed_of_parseVia {createIpv4 : SockaddrIn → StatusOr Instance}
    {createIpv6 : SockaddrIn6 → Bool → StatusOr Instance} {s : Text} {v6only : Bool} {i : Instance}
    (h : parseInternetAddressAndPortVia libc createIpv4 createIpv6 s v6only = some i) :
    WellFormed libc s := by
  rw [parseInternetAddressAndPortVia] at h
  split at h
  · exact nomatch h
  rename_i c hc
  split_ifs at h with hbracket
  · split at h
    · exact nomatch h
    rename_i pos hpos
    dsimp only at h
    split at h
    · exact nomatch h
    rename_i port hport
    split at h
    · rename_i sa6 hsa6
      refine ⟨_, _, port, hport, .inr ⟨?_, sa6, hsa6⟩⟩
      obtain ⟨t, rfl⟩ := List.head?_eq_some_iff.1 hc
      have hsplit := eq_of_rfind hpos
      subst hbracket
      -- What was found is not the bracket in front.
      cases pos with
      | zero => exact absurd (List.cons.inj hsplit).1 (by decide)
      | succ pos => exact hsplit
    · exact nomatch h
  · split at h
    · exact nomatch h
    rename_i pos hpos
    dsimp only at h
    split at h
    · exact nomatch h
    rename_i port hport
    split at h
    · rename_i sa4 hsa4
      exact ⟨_, _, port, hport, .inl ⟨eq_of_rfind hpos, sa4, hsa4⟩⟩
    · exact nomatch h

/-! ### Round trips -/

/-- The addresses that make the round trip: an IPv4 address and a port, or an IPv6 address and a
port without a zone, each built from its socket address. -/
inductive Built (libc : ParseLibc) : Instance → Prop
  | ipv4 (sin : SockaddrIn) : Built libc (.ipv4 (.ofSockaddr sin))
  | ipv6 (address : BitVec 128) (port : BitVec 16) (v6only : Bool) :
    Built libc (.ipv6 (.ofSockaddr libc.toLibc
      { sin6Port := port, sin6Addr := address, sin6ScopeId := 0 } v6only))

/-- The text of an address leads to an equal address, and a malformed text leads nowhere. -/
structure ParsedCorrectly (libc : ParseLibc) (parse : Text → Option Instance) (s : Text) :
    Prop where
  /-- If it is the text of `a`, what comes back is equal to `a`. -/
  roundTrip : ∀ a, Built libc a → s = a.asString → ∃ b, parse s = some b ∧ b.eq a = true
  /-- If it is not of the form `v4:port` or `[v6]:port`, nothing comes back. -/
  malformed : ¬WellFormed libc s → parse s = none

namespace ParsedCorrectly

/-- With a factory that accepts what it is given, every text is parsed correctly. -/
theorem of_accepting (h4 : ∀ a, libc.inetPton4 (dottedQuad a) = some a)
    (h6 : ∀ a, libc.inetPton6 (libc.inetNtop6 a) = some a)
    (hplain : ∀ a, PlainText (libc.inetNtop6 a))
    (hatoi : ∀ n : BitVec 64, libc.simpleAtoi (decimal n.toNat) = some n) (v6only : Bool)
    (s : Text) :
    ParsedCorrectly libc
      (parseInternetAddressAndPortVia libc (fun sin ↦ .ok (.ipv4 (.initHelper sin)))
        (fun sin6 v6only ↦ .ok (.ipv6 (.initHelper libc.toLibc sin6 v6only))) · v6only) s where
  roundTrip a ha hs := by
    subst hs
    cases ha with
    | ipv4 sin =>
      refine ⟨.ipv4 (.initHelper sin), parseVia_asString_ipv4 _ _ h4 hatoi sin v6only, ?_⟩
      exact decide_eq_true ⟨rfl, rfl⟩
    | ipv6 address port v6only' =>
      refine ⟨.ipv6 (.initHelper libc.toLibc _ v6only),
        parseVia_asString_ipv6 _ _ h6 hplain hatoi rfl v6only' v6only, ?_⟩
      exact decide_eq_true ⟨rfl, rfl, rfl⟩
  malformed hmalformed :=
    Option.eq_none_iff_forall_ne_some.2 fun _ hi ↦ hmalformed (wellFormed_of_parseVia hi)

/-- The factory rejects what it is given. -/
theorem parse_eq_none (s : Text) (v6only : Bool) :
    parseInternetAddressAndPortNoThrow libc s v6only = none := by
  refine Option.eq_none_iff_forall_ne_some.2 fun i hi ↦ ?_
  rw [parseInternetAddressAndPortNoThrow, parseInternetAddressAndPortVia] at hi
  dsimp only [createIpv4Instance_eq, createIpv6Instance_eq, instanceOrNull] at hi
  repeat' split at hi
  all_goals exact nomatch hi

end ParsedCorrectly

/-- **No address makes the round trip**: a text is parsed correctly if and only if it is not the
text of an address. A malformed text leads nowhere, as it should. With a factory that accepts, the
texts of the addresses are parsed correctly as well (`ParsedCorrectly.of_accepting`). -/
theorem parsedCorrectly_iff (libc : ParseLibc) (v6only : Bool) (s : Text) :
    (ParsedCorrectly libc (parseInternetAddressAndPortNoThrow libc · v6only) s ↔
      ∀ a, Built libc a → s ≠ a.asString) ∧
    (¬WellFormed libc s → parseInternetAddressAndPortNoThrow libc s v6only = none) := by
  have hnone : parseInternetAddressAndPortNoThrow libc s v6only = none :=
    ParsedCorrectly.parse_eq_none s v6only
  refine ⟨⟨fun h a ha hs ↦ ?_, fun hnot ↦ ⟨fun a ha hs ↦ absurd hs (hnot a ha), fun _ ↦ hnone⟩⟩,
    fun _ ↦ hnone⟩
  obtain ⟨b, hb, -⟩ := h.roundTrip a ha hs
  exact nomatch hnone.symm.trans hb

end

/-- A C library that parses what it renders. -/
noncomputable def plainParseLibc : ParseLibc where
  toLibc := plainLibc
  getaddrinfo _ := .error (-2)
  simpleAtoi := Function.partialInv fun n : BitVec 64 ↦ decimal n.toNat

theorem plainParseLibc_simpleAtoi (n : BitVec 64) :
    plainParseLibc.simpleAtoi (decimal n.toNat) = some n :=
  Function.partialInv_left (fun _ _ h ↦ BitVec.eq_of_toNat_eq (decimal_inj.1 h)) n

/-- `1.2.3.4:80` is not parsed. -/
theorem dotted_quad_not_parsed :
    ¬ ∀ libc : ParseLibc, (∀ a, libc.inetPton4 (dottedQuad a) = some a) →
      (∀ a, libc.inetPton6 (libc.inetNtop6 a) = some a) →
      (∀ a, PlainText (libc.inetNtop6 a)) →
      (∀ n : BitVec 64, libc.simpleAtoi (decimal n.toNat) = some n) →
      ∀ v6only s, ParsedCorrectly libc (parseInternetAddressAndPortNoThrow libc · v6only) s := by
  intro h
  have hparsed := h plainParseLibc plainLibc_inetPton4 plainLibc_inetPton6 plainLibc_plainText
    plainParseLibc_simpleAtoi false "1.2.3.4:80".toList
  obtain ⟨b, hb, -⟩ := hparsed.roundTrip _ (.ipv4 { sinPort := 80, sinAddr := 0x01020304 }) rfl
  exact nomatch (ParsedCorrectly.parse_eq_none _ false).symm.trans hb

end TcpServer.Network
