import TcpServer.Server.ListenerManager
import TcpServer.Network.AddressText
import Mathlib.Data.List.Induction

/-!
# The listeners of a worker, by address

`addListener` enters every TCP listener under the text of its address. A dual-stack wildcard
`[::]:p` is entered under `0.0.0.0:p` as well, but only if nothing is there yet, or a listener whose
address is equal to its own. An IPv4 listener never is, so once there is one under `0.0.0.0:p` no
dual-stack listener gets there any more.

Where the text of an address is a key for it, the map can be read off the history of the additions
(`MapCorrect`): the latest listener under its own address, and under `0.0.0.0:p` the latest IPv4
wildcard, or the latest dual-stack one if there has not been any.

The map is that of the TCP listeners. A configuration is added address by address, and every address
goes through the same two entries; so the invariant is shown for one entry, then for one
configuration, and then for a sequence of them (`ipv4_wildcard_priority`). Texts are keys only where
the C library reads what it writes, which is supposed of it.
-/

namespace TcpServer.Server

open Network Keyed

/-! ### Listeners -/

/-- The variant of `typed_listener_`. -/
inductive TypedListener
  | activeTcpListener
  | udpListenerCallbacks
  | internalListener
deriving DecidableEq

/-- `listener` is the identity of the active listener. -/
structure PerAddressActiveListenerDetails where
  /-- The identity of the active listener. -/
  listener : ℕ
  /-- The address that it listens on. -/
  address : Instance
  /-- What kind of listener it is. -/
  typedListener : TypedListener
deriving DecidableEq

/-- A `Network::ListenerConfig`: whether it has an `internalListenerConfig`, and the rest that
`addListener` reads. -/
structure ListenerConfig where
  /-- The tag under which the listeners of the configuration are found. -/
  listenerTag : UInt64
  /-- Whether it is an internal listener. -/
  internalListenerConfig : Bool
  /-- The factories of its sockets, one for each address. -/
  listenSocketFactories : List ListenSocketFactory

/-- The maps of a `ConnectionHandlerImpl`. `nextListener` is the identity of the next active
listener. -/
structure ConnectionHandlerImpl where
  /-- `listener_map_by_tag_`: all active listeners of a tag. -/
  listenerMapByTag : UInt64 → Option (List PerAddressActiveListenerDetails) := fun _ ↦ none
  /-- `tcp_listener_map_by_address_`: the TCP listener at an address. -/
  tcpListenerMapByAddress : Text → Option PerAddressActiveListenerDetails := fun _ ↦ none
  /-- `internal_listener_map_by_address_`: the internal listener at an address. -/
  internalListenerMapByAddress : Text → Option PerAddressActiveListenerDetails := fun _ ↦ none
  /-- The identity of the next active listener. -/
  nextListener : ℕ := 0

/-- `insert_or_assign`. -/
def insertOrAssign {κ ν : Type} [DecidableEq κ] (m : κ → Option ν) (key : κ) (value : ν) :
    κ → Option ν :=
  Function.update m key (some value)

/-- `isAnyAddress()`. -/
def isAnyAddress (i : Ipv6Instance) : Bool := i.address.sin6Addr = 0

/-- `v4CompatibleAddress()`, which is null if the factory rejects the address. -/
def v4CompatibleAddress (i : Ipv6Instance) : Option Instance :=
  if ¬ i.v6only ∧ isV4Mapped i.address.sin6Addr then
    (createIpv4Instance (ipv6ToIpv4CompatibleAddress i.address)).toOption
  else none

namespace ConnectionHandlerImpl

/-- The entries of one TCP listener. There is no result where a null pointer is dereferenced. -/
def insertTcpListener (tcpListenerMapByAddress : Text → Option PerAddressActiveListenerDetails)
    (details : PerAddressActiveListenerDetails) :
    Option (Text → Option PerAddressActiveListenerDetails) :=
  let address := details.address
  let m := insertOrAssign tcpListenerMapByAddress address.asString details
  match address with
  | .ipv6 i =>
    if i.v6only then some m
    else if isAnyAddress i then
      let ipv4AnyAddress := (Instance.ipv4 (.ofPort (.ofNat 32 i.port))).asString
      match m ipv4AnyAddress with
      | none => some (insertOrAssign m ipv4AnyAddress details)
      | some ipv4AnyListener =>
        if ipv4AnyListener.address.eq address then some (insertOrAssign m ipv4AnyAddress details)
        else some m
    else
      match v4CompatibleAddress i with
      | none => none
      | some v4CompatibleAddr => some (insertOrAssign m v4CompatibleAddr.asString details)
  | _ => some m

/-- The body of the last loop of `addListener`. -/
def insertDetails (handler : ConnectionHandlerImpl) (details : PerAddressActiveListenerDetails) :
    Option ConnectionHandlerImpl :=
  match details.typedListener with
  | .activeTcpListener =>
    match insertTcpListener handler.tcpListenerMapByAddress details with
    | none => none
    | some m => some { handler with tcpListenerMapByAddress := m }
  | .internalListener =>
    match details.address with
    | .envoyInternal i =>
      let m := insertOrAssign handler.internalListenerMapByAddress i.addressId details
      some { handler with internalListenerMapByAddress := m }
    | _ => none
  | .udpListenerCallbacks => some handler

/-- A new active listener for each of the addresses. -/
def addActiveListeners (nextListener : ℕ) (typedListener : TypedListener)
    (addresses : List Instance) : List PerAddressActiveListenerDetails :=
  addresses.mapIdx fun i address ↦ { listener := nextListener + i, address, typedListener }

/-- The active listeners of a configuration. There is no result where `listenSocketFactories()[0]`
does not exist. -/
def activeListenerDetails (nextListener : ℕ) (config : ListenerConfig) :
    Option (List PerAddressActiveListenerDetails) :=
  match config.listenSocketFactories with
  | [] => none
  | first :: rest =>
    let addresses := (first :: rest).map (·.localAddress)
    if config.internalListenerConfig then
      some (addActiveListeners nextListener .internalListener [first.localAddress])
    else if first.socketType = .stream then
      some (addActiveListeners nextListener .activeTcpListener addresses)
    else some (addActiveListeners nextListener .udpListenerCallbacks addresses)

/-- `addListener`. With an `overridden_listener` there is nothing to do, since the call of
`updateListenerConfig` is commented out, but the listener has to be there. -/
def addListener (handler : ConnectionHandlerImpl) (overriddenListener : Option UInt64)
    (config : ListenerConfig) : Option ConnectionHandlerImpl :=
  match overriddenListener with
  | some tag => if (handler.listenerMapByTag tag).isSome then some handler else none
  | none => do
    let details ← activeListenerDetails handler.nextListener config
    let allocated := { handler with nextListener := handler.nextListener + details.length }
    let handler ← details.foldlM insertDetails allocated
    -- `emplace` leaves an entry alone that is there already.
    if (handler.listenerMapByTag config.listenerTag).isSome then some handler
    else some { handler with
      listenerMapByTag := insertOrAssign handler.listenerMapByTag config.listenerTag details }

end ConnectionHandlerImpl

/-! ### Wildcards

The addresses of which the second entry is made are the dual-stack wildcards, and the ones that
compete for it are the IPv4 wildcards. Other addresses that are for both stacks are left out here:
they have no IPv4 address that could be entered.
-/

/-- `0.0.0.0:port`. -/
def isIpv4Any (port : BitVec 16) : Instance → Bool
  | .ipv4 i => i.address.sinAddr = 0 ∧ i.address.sinPort = port
  | _ => false

/-- `[::]:port`, for IPv4 as well. -/
def isDualStackAny (port : BitVec 16) : Instance → Bool
  | .ipv6 i =>
    i.v6only = false ∧ i.address.sin6Addr = 0 ∧ i.address.sin6ScopeId = 0 ∧
      i.address.sin6Port = port
  | _ => false

/-- The text of the IPv4 wildcard of a port. -/
def ipv4AnyText (port : BitVec 16) : Text := "0.0.0.0:".toList ++ decimal port.toNat

/-- An address whose text is faithful, and which is an IPv4 address, an IPv6 address that is not for
IPv4 as well, or a dual-stack wildcard. -/
def Admissible (libc : Libc) (a : Instance) : Prop :=
  a.TextAgrees libc ∧
    match a with
    | .ipv4 _ => True
    | .ipv6 i => i.v6only = true ∨ ∃ port, isDualStackAny port (.ipv6 i)
    | _ => False

variable {libc : Libc}

/-- It determines the port. -/
theorem ipv4AnyText_inj {p q : BitVec 16} : ipv4AnyText p = ipv4AnyText q ↔ p = q := by
  refine ⟨fun h ↦ BitVec.eq_of_toNat_eq (decimal_inj.1 ?_), fun h ↦ h ▸ rfl⟩
  exact List.append_cancel_left h

/-- The address whose text it is. -/
theorem asString_ofPort (port : BitVec 16) :
    (Instance.ipv4 (.ofPort (.ofNat 32 port.toNat))).asString = ipv4AnyText port := by
  have hport : (BitVec.ofNat 32 port.toNat).toNat = port.toNat := by
    rw [BitVec.toNat_ofNat]
    omega
  exact congrArg (fun n ↦ "0.0.0.0:".toList ++ decimal n) hport

/-- The key `0.0.0.0:port` is the text of the IPv4 wildcard, and of no other address. -/
theorem asString_eq_ipv4AnyText_iff {a : Instance} (ha : a.TextAgrees libc) {port : BitVec 16} :
    a.asString = ipv4AnyText port ↔ isIpv4Any port a = true := by
  have htext : ipv4AnyText port = dottedQuad 0 ++ ':' :: decimal port.toNat := rfl
  have hcolon (n : ℕ) : ':' ∉ decimal n := notMem_decimal (by decide) n
  rw [htext]
  cases a with
  | ipv4 i =>
    rw [Instance.asString, ha.2, Numerals.append_cons_inj_right (hcolon _) (hcolon _),
      dottedQuad_inj, decimal_inj, isIpv4Any, decide_eq_true_iff]
    exact and_congr_right' ⟨BitVec.eq_of_toNat_eq, congrArg _⟩
  | ipv6 i =>
    refine iff_of_false (fun h ↦ ?_) Bool.false_ne_true
    rw [Instance.asString, ha.2] at h
    exact bracket_notMem 0 port.toNat (by rw [← h]; exact List.mem_cons_self)
  | pipe | envoyInternal => exact ha.elim

/-! ### What the map holds

Nothing is ever removed from the map while listeners are added, so what it holds is a function of
the history. Under the text of an IPv4 wildcard that is the latest IPv4 wildcard if there is one,
whatever was added after it, and under any other text it is the latest listener of that text.
-/

/-- The latest listener at `0.0.0.0:port`. -/
def latestIpv4Any (port : BitVec 16) (added : List PerAddressActiveListenerDetails) :
    Option PerAddressActiveListenerDetails :=
  latest (isIpv4Any port ·.address) added

/-- The latest dual-stack listener at `[::]:port`. -/
def latestDualStackAny (port : BitVec 16) (added : List PerAddressActiveListenerDetails) :
    Option PerAddressActiveListenerDetails :=
  latest (isDualStackAny port ·.address) added

theorem latestIpv4Any_append (port : BitVec 16) (added : List PerAddressActiveListenerDetails)
    (d : PerAddressActiveListenerDetails) : latestIpv4Any port (added ++ [d]) =
      if isIpv4Any port d.address then some d else latestIpv4Any port added :=
  latest_append_singleton _ added d

theorem latestDualStackAny_append (port : BitVec 16) (added : List PerAddressActiveListenerDetails)
    (d : PerAddressActiveListenerDetails) : latestDualStackAny port (added ++ [d]) =
      if isDualStackAny port d.address then some d else latestDualStackAny port added :=
  latest_append_singleton _ added d

/-- The map after the TCP listeners in `added`. -/
structure MapCorrect (m : Text → Option PerAddressActiveListenerDetails)
    (added : List PerAddressActiveListenerDetails) : Prop where
  /-- Under the text of a wildcard there is the latest IPv4 wildcard, or else the latest dual-stack
  one. -/
  wildcard : ∀ port, m (ipv4AnyText port) =
    (latestIpv4Any port added).or (latestDualStackAny port added)
  /-- Under any other text there is the latest listener with it. -/
  other : ∀ key, (∀ port, key ≠ ipv4AnyText port) → m key = latest (·.address.asString = key) added

namespace MapCorrect

variable {m : Text → Option PerAddressActiveListenerDetails}
  {added : List PerAddressActiveListenerDetails} {d : PerAddressActiveListenerDetails}

theorem nil : MapCorrect (fun _ ↦ none) [] where
  wildcard _ := rfl
  other _ _ := rfl

/-- The entry of a listener under its own address, which may be `0.0.0.0:port`. -/
theorem insert_own (h : MapCorrect m added) (hd : d.address.TextAgrees libc) :
    (∀ port, insertOrAssign m d.address.asString d (ipv4AnyText port) =
        (latestIpv4Any port (added ++ [d])).or (latestDualStackAny port added)) ∧
      ∀ key, (∀ port, key ≠ ipv4AnyText port) → insertOrAssign m d.address.asString d key =
        latest (·.address.asString = key) (added ++ [d]) := by
  refine ⟨fun port ↦ ?_, fun key hkey ↦ ?_⟩
  · have hiff : d.address.asString = ipv4AnyText port ↔ isIpv4Any port d.address = true :=
      asString_eq_ipv4AnyText_iff hd
    rw [latestIpv4Any_append, insertOrAssign, Function.update_apply, h.wildcard]
    split_ifs with htext hany hany
    · rfl
    · exact absurd (hiff.1 htext.symm) hany
    · exact absurd (hiff.2 hany).symm htext
    · rfl
  · rw [latest_append_singleton, insertOrAssign, Function.update_apply, h.other key hkey]
    exact if_congr (eq_comm.trans decide_eq_true_iff.symm) rfl rfl

/-- The second entry of a dual-stack wildcard. -/
theorem insertTcpListener_dualStack {port : BitVec 16}
    (hdual : isDualStackAny port d.address = true) :
    ConnectionHandlerImpl.insertTcpListener m d =
      match insertOrAssign m d.address.asString d (ipv4AnyText port) with
      | none => some (insertOrAssign (insertOrAssign m d.address.asString d) (ipv4AnyText port) d)
      | some e =>
        if e.address.eq d.address then
          some (insertOrAssign (insertOrAssign m d.address.asString d) (ipv4AnyText port) d)
        else some (insertOrAssign m d.address.asString d) := by
  obtain ⟨listener, address, typedListener⟩ := d
  cases address with
  | ipv4 | pipe | envoyInternal => exact nomatch hdual
  | ipv6 i =>
    obtain ⟨hv6only, haddr, -, rfl⟩ := of_decide_eq_true (p := _ ∧ _ ∧ _ ∧ _) hdual
    have hany : isAnyAddress i = true := decide_eq_true haddr
    have hport : (Instance.ipv4 (.ofPort (.ofNat 32 i.port))).asString =
        ipv4AnyText i.address.sin6Port := asString_ofPort _
    rw [ConnectionHandlerImpl.insertTcpListener]
    dsimp only
    rw [if_neg (Bool.eq_false_iff.1 hv6only), if_pos hany, hport]

/-- Two dual-stack wildcards on a port are equal, an IPv4 wildcard is not equal to one. -/
theorem eq_dualStack {a b : Instance} {port : BitVec 16} (hb : isDualStackAny port b = true) :
    (isDualStackAny port a = true → a.eq b = true) ∧
      (isIpv4Any port a = true → a.eq b = false) := by
  cases b with
  | ipv4 | pipe | envoyInternal => exact nomatch hb
  | ipv6 j =>
    cases a with
    | ipv4 i => exact ⟨(nomatch ·), fun _ ↦ rfl⟩
    | pipe | envoyInternal => exact ⟨(nomatch ·), (nomatch ·)⟩
    | ipv6 i =>
      refine ⟨fun ha ↦ ?_, (nomatch ·)⟩
      obtain ⟨-, haddr, hscope, hport⟩ := of_decide_eq_true (p := _ ∧ _ ∧ _ ∧ _) ha
      obtain ⟨-, haddr', hscope', hport'⟩ := of_decide_eq_true (p := _ ∧ _ ∧ _ ∧ _) hb
      refine decide_eq_true ⟨haddr.trans haddr'.symm, ?_, hscope.trans hscope'.symm⟩
      exact congrArg BitVec.toNat (hport.trans hport'.symm)

/-- A dual-stack wildcard is on one port. -/
theorem isDualStackAny_unique {a : Instance} {p q : BitVec 16} (hp : isDualStackAny p a = true)
    (hq : isDualStackAny q a = true) : p = q := by
  cases a with
  | ipv4 | pipe | envoyInternal => exact nomatch hp
  | ipv6 i =>
    obtain ⟨-, -, -, hp⟩ := of_decide_eq_true (p := _ ∧ _ ∧ _ ∧ _) hp
    obtain ⟨-, -, -, hq⟩ := of_decide_eq_true (p := _ ∧ _ ∧ _ ∧ _) hq
    exact hp.symm.trans hq

/-- Both entries of a dual-stack wildcard. -/
theorem insert_dualStack (h : MapCorrect m added) (hd : d.address.TextAgrees libc)
    {port : BitVec 16}
    (hdual : isDualStackAny port d.address = true) :
    ∃ m', ConnectionHandlerImpl.insertTcpListener m d = some m' ∧ MapCorrect m' (added ++ [d]) := by
  obtain ⟨hwildcard, hother⟩ := h.insert_own hd
  rw [insertTcpListener_dualStack hdual]
  obtain ⟨m₁, hm₁⟩ : ∃ m₁, insertOrAssign m d.address.asString d = m₁ := ⟨_, rfl⟩
  rw [hm₁] at hwildcard hother ⊢
  have hnot4 (q : BitVec 16) : ¬ isIpv4Any q d.address = true := by
    cases haddr : d.address with
    | ipv6 => exact (nomatch ·)
    | ipv4 | pipe | envoyInternal => rw [haddr] at hdual; exact nomatch hdual
  have hports {q : BitVec 16} (hq : q ≠ port) : ¬ isDualStackAny q d.address = true :=
    fun h ↦ hq (isDualStackAny_unique h hdual)
  -- Another port does not see the listener.
  have hother_port {q : BitVec 16} (hq : q ≠ port) : m₁ (ipv4AnyText q) =
      (latestIpv4Any q (added ++ [d])).or (latestDualStackAny q (added ++ [d])) := by
    rw [hwildcard q, latestDualStackAny_append, if_neg (hports hq)]
  have hheld := hwildcard port
  rw [latestIpv4Any_append, if_neg (hnot4 port)] at hheld
  cases h4 : latestIpv4Any port added with
  | some e =>
    -- An IPv4 wildcard is there, and stays.
    rw [h4, Option.some_or] at hheld
    have he := (eq_dualStack hdual).2 (of_latest_eq_some h4).2
    refine ⟨m₁, ?_, ⟨fun q ↦ ?_, hother⟩⟩
    · rw [hheld]
      exact if_neg (Bool.eq_false_iff.1 he)
    · obtain rfl | hq := eq_or_ne q port
      · rw [hheld, latestIpv4Any_append, if_neg (hnot4 q), h4, Option.some_or]
      · exact hother_port hq
  | none =>
    -- There is nothing, or a dual-stack wildcard, which is equal.
    refine ⟨insertOrAssign m₁ (ipv4AnyText port) d, ?_, ⟨fun q ↦ ?_, fun key hkey ↦ ?_⟩⟩
    · rw [h4, Option.none_or] at hheld
      rw [hheld]
      cases h6 : latestDualStackAny port added with
      | none => rfl
      | some e => exact if_pos ((eq_dualStack hdual).1 (of_latest_eq_some h6).2)
    · obtain rfl | hq := eq_or_ne q port
      · rw [insertOrAssign, Function.update_self, latestIpv4Any_append,
          if_neg (hnot4 q), h4, Option.none_or, latestDualStackAny_append, if_pos hdual]
      · rw [insertOrAssign, Function.update_of_ne (ipv4AnyText_inj.not.2 hq)]
        exact hother_port hq
    · rw [insertOrAssign, Function.update_of_ne (hkey port)]
      exact hother key hkey

/-- An address of one stack has only its own entry. -/
theorem insert_singleStack (h : MapCorrect m added) (hd : d.address.TextAgrees libc)
    (hinsert : ConnectionHandlerImpl.insertTcpListener m d =
      some (insertOrAssign m d.address.asString d))
    (hnot : ∀ port, ¬ isDualStackAny port d.address = true) :
    ∃ m', ConnectionHandlerImpl.insertTcpListener m d = some m' ∧ MapCorrect m' (added ++ [d]) := by
  obtain ⟨hwildcard, hother⟩ := h.insert_own hd
  refine ⟨_, hinsert, ⟨fun port ↦ ?_, hother⟩⟩
  rw [hwildcard port, latestDualStackAny_append, if_neg (hnot port)]

/-- The entries of any admissible address. -/
theorem insert (h : MapCorrect m added) (hd : Admissible libc d.address) :
    ∃ m', ConnectionHandlerImpl.insertTcpListener m d = some m' ∧ MapCorrect m' (added ++ [d]) := by
  obtain ⟨listener, address, typedListener⟩ := d
  obtain ⟨hagrees, hkind⟩ := hd
  cases address with
  | ipv4 i => exact h.insert_singleStack hagrees rfl fun _ ↦ (nomatch ·)
  | ipv6 i =>
    rcases hkind with hv6only | ⟨port, hdual⟩
    · refine h.insert_singleStack hagrees ?_ fun port hdual ↦ ?_
      · rw [ConnectionHandlerImpl.insertTcpListener]
        exact if_pos hv6only
      · have hnot := (of_decide_eq_true (p := _ ∧ _ ∧ _ ∧ _) hdual).1
        exact Bool.false_ne_true (hnot.symm.trans hv6only)
    · exact h.insert_dualStack hagrees hdual
  | pipe | envoyInternal => exact hkind.elim

end MapCorrect

/-! ### Sequences of additions

The active listeners of a configuration are added in the order of its addresses, with consecutive
identities.
-/

namespace ListenerConfig

/-- The addresses of a configuration. -/
def addresses (config : ListenerConfig) : List Instance :=
  config.listenSocketFactories.map (·.localAddress)

/-- A TCP listener, with at least one socket. -/
def IsTcp (config : ListenerConfig) : Prop :=
  config.internalListenerConfig = false ∧
    ∃ first, config.listenSocketFactories.head? = some first ∧ first.socketType = .stream

end ListenerConfig

/-- The TCP listeners of a sequence of configurations, in the order in which they are added. -/
def additions (configs : List ListenerConfig) : List PerAddressActiveListenerDetails :=
  ConnectionHandlerImpl.addActiveListeners 0 .activeTcpListener (configs.flatMap (·.addresses))

namespace ConnectionHandlerImpl

variable {handler : ConnectionHandlerImpl} {added : List PerAddressActiveListenerDetails}

/-- Identities are given out in the order of the addresses. -/
theorem addActiveListeners_append (n : ℕ) (t : TypedListener) (as bs : List Instance) :
    addActiveListeners n t (as ++ bs) =
      addActiveListeners n t as ++ addActiveListeners (n + as.length) t bs := by
  rw [addActiveListeners, List.mapIdx_append]
  simp only [addActiveListeners, Nat.add_assoc, Nat.add_comm as.length]

theorem length_addActiveListeners (n : ℕ) (t : TypedListener) (as : List Instance) :
    (addActiveListeners n t as).length = as.length :=
  List.length_mapIdx

theorem of_mem_addActiveListeners {n : ℕ} {t : TypedListener} {as : List Instance}
    {d : PerAddressActiveListenerDetails} (hd : d ∈ addActiveListeners n t as) :
    d.typedListener = t ∧ d.address ∈ as := by
  obtain ⟨i, hi, rfl⟩ := List.mem_mapIdx.1 hd
  exact ⟨rfl, List.getElem_mem hi⟩

/-- The loop over the active listeners of a configuration. -/
theorem foldlM_insertDetails (handler : ConnectionHandlerImpl)
    (h : MapCorrect handler.tcpListenerMapByAddress added)
    {details : List PerAddressActiveListenerDetails}
    (hdetails : ∀ d ∈ details, d.typedListener = .activeTcpListener ∧ Admissible libc d.address) :
    ∃ m, details.foldlM insertDetails handler = some { handler with tcpListenerMapByAddress := m } ∧
      MapCorrect m (added ++ details) := by
  induction details generalizing handler added with
  | nil => exact ⟨_, rfl, by rwa [List.append_nil]⟩
  | cons d details ih =>
    obtain ⟨⟨htcp, hd⟩, hdetails⟩ := List.forall_mem_cons.1 hdetails
    obtain ⟨m₁, hm₁, h₁⟩ := h.insert hd
    have hstep : handler.insertDetails d =
        some { handler with tcpListenerMapByAddress := m₁ } := by
      rw [insertDetails, htcp]
      dsimp only
      rw [hm₁]
    obtain ⟨m, hm, h⟩ := ih { handler with tcpListenerMapByAddress := m₁ } h₁ hdetails
    refine ⟨m, ?_, ?_⟩
    · rw [List.foldlM_cons, hstep]
      exact hm
    · rwa [List.append_assoc] at h

/-- A TCP listener has an active listener for each of its addresses. -/
theorem activeListenerDetails_of_isTcp {nextListener : ℕ} {config : ListenerConfig}
    (htcp : config.IsTcp) : activeListenerDetails nextListener config =
      some (addActiveListeners nextListener .activeTcpListener config.addresses) := by
  obtain ⟨hinternal, first, hfirst, hstream⟩ := htcp
  obtain ⟨rest, hrest⟩ := List.head?_eq_some_iff.1 hfirst
  rw [activeListenerDetails, ListenerConfig.addresses, hrest]
  dsimp only
  rw [hinternal, if_neg Bool.false_ne_true, if_pos hstream]

/-- A configuration is added with the entries of all its addresses. -/
theorem addListener_correct (h : MapCorrect handler.tcpListenerMapByAddress added)
    {config : ListenerConfig} (htcp : config.IsTcp)
    (hconfig : ∀ a ∈ config.addresses, Admissible libc a) :
    ∃ handler', handler.addListener none config = some handler' ∧
      handler'.nextListener = handler.nextListener + config.addresses.length ∧
      MapCorrect handler'.tcpListenerMapByAddress
        (added ++ addActiveListeners handler.nextListener .activeTcpListener config.addresses) := by
  have hadmissible :
    ∀ d ∈ addActiveListeners handler.nextListener .activeTcpListener config.addresses,
      d.typedListener = .activeTcpListener ∧ Admissible libc d.address := fun d hd ↦
    ⟨(of_mem_addActiveListeners hd).1, hconfig _ (of_mem_addActiveListeners hd).2⟩
  obtain ⟨m, hm, hcorrect⟩ := foldlM_insertDetails
    { handler with nextListener := handler.nextListener + config.addresses.length } h hadmissible
  rw [addListener]
  dsimp only
  rw [activeListenerDetails_of_isTcp htcp, Option.bind_eq_bind, Option.bind_some,
    length_addActiveListeners, hm]
  rw [Option.bind_eq_bind, Option.bind_some]
  split_ifs
  · exact ⟨_, rfl, rfl, hcorrect⟩
  · exact ⟨_, rfl, rfl, hcorrect⟩

/-- `addListener` without override, one configuration after the other. -/
def addListeners (configs : List ListenerConfig) : Option ConnectionHandlerImpl :=
  configs.foldlM (fun handler config ↦ handler.addListener none config) {}

/-- A sequence of configurations is added with the entries of all their addresses. -/
theorem addListeners_correct {configs : List ListenerConfig}
    (hconfigs : ∀ config ∈ configs, config.IsTcp ∧ ∀ a ∈ config.addresses, Admissible libc a) :
    ∃ handler, addListeners configs = some handler ∧
      handler.nextListener = (configs.flatMap (·.addresses)).length ∧
      MapCorrect handler.tcpListenerMapByAddress (additions configs) := by
  induction configs using List.reverseRecOn with
  | nil => exact ⟨{}, rfl, rfl, .nil⟩
  | append_singleton configs config ih =>
    rw [List.forall_mem_append, List.forall_mem_singleton] at hconfigs
    obtain ⟨hconfigs, htcp, hconfig⟩ := hconfigs
    obtain ⟨handler, hrun, hnext, hcorrect⟩ := ih hconfigs
    obtain ⟨handler', hadd, hnext', hcorrect'⟩ := addListener_correct hcorrect htcp hconfig
    have hflat : (configs ++ [config]).flatMap (·.addresses) =
        configs.flatMap (·.addresses) ++ config.addresses := by
      rw [List.flatMap_append, List.flatMap_singleton]
    refine ⟨handler', ?_, ?_, ?_⟩
    · rw [addListeners, List.foldlM_append]
      show (addListeners configs).bind _ = _
      rw [hrun, Option.bind_some, List.foldlM_cons, hadd]
      rfl
    · rw [hnext', hnext, hflat, List.length_append]
    · rw [additions, hflat, addActiveListeners_append, Nat.zero_add, ← hnext]
      exact hcorrect'

/-- **True wildcards come first.** Under `0.0.0.0:port` there is the latest IPv4 wildcard, or the
latest dual-stack wildcard if there has not been any; under every other address the latest listener
that has it. -/
theorem ipv4_wildcard_priority (h6 : ∀ a, libc.inetPton6 (libc.inetNtop6 a) = some a)
    (hplain : ∀ a, PlainText (libc.inetNtop6 a)) {configs : List ListenerConfig}
    (hconfigs : ∀ config ∈ configs, config.IsTcp ∧ ∀ a ∈ config.addresses, Admissible libc a) :
    ∃ handler, addListeners configs = some handler ∧
      (∀ port, handler.tcpListenerMapByAddress (ipv4AnyText port) =
        (latestIpv4Any port (additions configs)).or (latestDualStackAny port (additions configs))) ∧
      (∀ a : Instance, a.TextAgrees libc → (∀ port, isIpv4Any port a = false) →
        handler.tcpListenerMapByAddress a.asString = latest (·.address.eq a) (additions configs)) ∧
      ∀ port, (∃ d ∈ additions configs, isIpv4Any port d.address = true) →
        ∃ d, handler.tcpListenerMapByAddress (ipv4AnyText port) = some d ∧
          isIpv4Any port d.address = true := by
  obtain ⟨handler, hrun, -, hcorrect⟩ := addListeners_correct hconfigs
  refine ⟨handler, hrun, hcorrect.wildcard, fun a ha hnot ↦ ?_, fun port ⟨d, hd, hany⟩ ↦ ?_⟩
  · have hkey (port : BitVec 16) : a.asString ≠ ipv4AnyText port := fun h ↦
      Bool.eq_false_iff.1 (hnot port) ((asString_eq_ipv4AnyText_iff ha).1 h)
    have hadded : ∀ d ∈ additions configs, d.address.TextAgrees libc := by
      intro d hd
      obtain ⟨config, hconfig, hmem⟩ := List.mem_flatMap.1 (of_mem_addActiveListeners hd).2
      exact ((hconfigs config hconfig).2 _ hmem).1
    rw [hcorrect.other _ hkey]
    refine congrArg List.getLast? (List.filter_congr fun d hd ↦ ?_)
    have hiff := eq_iff_asString_eq_of_plain h6 hplain (hadded d hd) ha
    exact Bool.eq_iff_iff.2 (decide_eq_true_iff.trans hiff.symm)
  · have hsome : latestIpv4Any port (additions configs) ≠ none := fun hnone ↦
      Bool.eq_false_iff.1 (latest_eq_none_iff.1 hnone d hd) hany
    obtain ⟨e, he⟩ := Option.ne_none_iff_exists'.1 hsome
    refine ⟨e, ?_, (of_latest_eq_some he).2⟩
    rw [hcorrect.wildcard, he, Option.some_or]

/-- Port 80 on `address` alone. -/
def portEighty (address : Instance) : ListenerConfig where
  listenerTag := 7
  internalListenerConfig := false
  listenSocketFactories := [{
    localAddress := address
    socketType := .stream
    listenerName := "http".toList
    bindType := .reusePort
    mptcpEnabled := false }]

/-- An IPv4 wildcard between two dual-stack ones. -/
theorem ipv4_wildcard_priority_between :
    let any6 := Instance.ipv6 (.ofSockaddr plainLibc
        { sin6Port := 80, sin6Addr := 0, sin6ScopeId := 0 }
      false)
    let any4 := Instance.ipv4 (.ofSockaddr { sinPort := 80, sinAddr := 0 })
    ∃ handler, addListeners [portEighty any6, portEighty any4, portEighty any6] = some handler ∧
      (handler.tcpListenerMapByAddress (ipv4AnyText 80)).map (·.listener) = some 1 ∧
      (handler.tcpListenerMapByAddress any6.asString).map (·.listener) = some 2 := by
  intro any6 any4
  have h6 : Admissible plainLibc any6 := ⟨textAgrees_ipv6_initHelper _ _, .inr ⟨80, rfl⟩⟩
  have h4 : Admissible plainLibc any4 := ⟨textAgrees_ipv4_ofSockaddr _, trivial⟩
  have hconfig {a : Instance} (ha : Admissible plainLibc a) :
      (portEighty a).IsTcp ∧ ∀ b ∈ (portEighty a).addresses, Admissible plainLibc b :=
    ⟨⟨rfl, _, rfl, rfl⟩, List.forall_mem_singleton.2 ha⟩
  obtain ⟨handler, hrun, hwildcard, hother, -⟩ := ipv4_wildcard_priority
    plainLibc_inetPton6 plainLibc_plainText
    (List.forall_mem_cons.2 ⟨hconfig h6, List.forall_mem_cons.2 ⟨hconfig h4,
      List.forall_mem_singleton.2 (hconfig h6)⟩⟩)
  refine ⟨handler, hrun, ?_, ?_⟩
  · rw [hwildcard 80]
    rfl
  · rw [hother any6 h6.1 fun _ ↦ rfl]
    rfl

end ConnectionHandlerImpl

end TcpServer.Server
