import TcpServer.Server.ConnectionHandler

/-!
# Dual-stack listeners

`addListener` dereferences the IPv4 address of a dual-stack listener that is not the wildcard. It
relies on two things that the code around it does not do: that the constructor of `ListenerImpl`
rejects an address that has none, since the call of `checkIpv4CompatAddress` is commented out; and
that an address that has one is given one, since `createIpv4Instance` rejects every address. So the
pointer is null for every such listener (`v4CompatibleAddress_eq_none`), and a configuration is
added without harm only if it has none of them (`addsSafely_iff`).

There is no result where a null pointer is dereferenced, so that a configuration is added without
harm is that there is a result, with an overridden listener or without one.
-/

namespace TcpServer.Server

open Network

namespace ConnectionHandlerImpl

/-- What is asked of `addListener`: there is no result where a null pointer is dereferenced. An
`overridden_listener` is one that is there. -/
structure AddsSafely (handler : ConnectionHandlerImpl) (config : ListenerConfig) : Prop where
  /-- The call returns, whatever listener is overridden. -/
  completes : ∀ overriddenListener : Option UInt64,
    (∀ tag ∈ overriddenListener, (handler.listenerMapByTag tag).isSome) →
    (handler.addListener overriddenListener config).isSome
  /-- A mapped address that is for IPv4 as well has an IPv4 address. -/
  mapped : ∀ i : Ipv6Instance, .ipv6 i ∈ config.addresses → i.v6only = false →
    isV4Mapped i.address.sin6Addr = true → v4CompatibleAddress i ≠ none

/-- An address that is entered without a look at its IPv4 address. -/
def SingleEntry : Instance → Prop
  | .ipv6 i => i.v6only = true ∨ isAnyAddress i = true
  | _ => True

variable {handler : ConnectionHandlerImpl} {config : ListenerConfig}

/-! ### The IPv4 address

The compatible address is made by the factory of IPv4 addresses, which rejects whatever it is given.
So no address has one, whether it is mapped or not, and what is asked of mapped addresses fails for
each of them.
-/

/-- The factory rejects every IPv4 address. -/
theorem v4CompatibleAddress_eq_none (i : Ipv6Instance) : v4CompatibleAddress i = none :=
  ite_self none

/-- `::` is not mapped. -/
theorem not_isV4Mapped_of_isAnyAddress {i : Ipv6Instance} (h : isAnyAddress i = true) :
    ¬ isV4Mapped i.address.sin6Addr = true := by
  rw [show i.address.sin6Addr = 0 from of_decide_eq_true h]
  decide

/-! ### The entries -/

/-- The entries of a listener are made if the address has a single entry, and end in a null pointer
otherwise. -/
theorem isSome_insertTcpListener_iff (m : Text → Option PerAddressActiveListenerDetails)
    (d : PerAddressActiveListenerDetails) :
    (insertTcpListener m d).isSome = true ↔ SingleEntry d.address := by
  obtain ⟨listener, address, typedListener⟩ := d
  match address with
  | .ipv4 _ | .pipe _ | .envoyInternal _ => exact iff_of_true rfl trivial
  | .ipv6 i =>
    rw [insertTcpListener, SingleEntry]
    dsimp only
    rw [v4CompatibleAddress_eq_none]
    split_ifs with hv6only hany
    · exact iff_of_true rfl (.inl hv6only)
    · refine iff_of_true ?_ (.inr hany)
      split
      · rfl
      · split_ifs <;> rfl
    · exact iff_of_false Bool.false_ne_true fun h ↦ h.elim hv6only hany

/-- So it is for the body of the loop. -/
theorem isSome_insertDetails_iff (handler : ConnectionHandlerImpl)
    {d : PerAddressActiveListenerDetails} (h : d.typedListener = .activeTcpListener) :
    (handler.insertDetails d).isSome = true ↔ SingleEntry d.address := by
  rw [← isSome_insertTcpListener_iff handler.tcpListenerMapByAddress, insertDetails, h]
  dsimp only
  cases insertTcpListener handler.tcpListenerMapByAddress d <;> rfl

/-- One entry that cannot be made ends the loop. -/
theorem isSome_foldlM_insertDetails_iff (handler : ConnectionHandlerImpl)
    {details : List PerAddressActiveListenerDetails}
    (h : ∀ d ∈ details, d.typedListener = .activeTcpListener) :
    (details.foldlM insertDetails handler).isSome = true ↔
      ∀ d ∈ details, SingleEntry d.address := by
  induction details generalizing handler with
  | nil => exact iff_of_true rfl fun _ ↦ (nomatch ·)
  | cons d details ih =>
    obtain ⟨hd, hdetails⟩ := List.forall_mem_cons.1 h
    rw [List.foldlM_cons, List.forall_mem_cons, ← isSome_insertDetails_iff handler hd]
    match handler.insertDetails d with
    | none => exact iff_of_false Bool.false_ne_true fun hall ↦ Bool.false_ne_true hall.1
    | some handler' => exact (ih handler' hdetails).trans (and_iff_right rfl).symm

theorem forall_mem_addActiveListeners {n : ℕ} {t : TypedListener} {addresses : List Instance}
    {p : Instance → Prop} :
    (∀ d ∈ addActiveListeners n t addresses, p d.address) ↔ ∀ a ∈ addresses, p a := by
  refine ⟨fun h a ha ↦ ?_, fun h d hd ↦ h _ (of_mem_addActiveListeners hd).2⟩
  obtain ⟨i, hi, rfl⟩ := List.getElem_of_mem ha
  exact h _ (List.mem_mapIdx.2 ⟨i, hi, rfl⟩)

/-- A TCP listener is added if all its addresses have a single entry. -/
theorem isSome_addListener_iff (htcp : config.IsTcp) :
    (handler.addListener none config).isSome = true ↔ ∀ a ∈ config.addresses, SingleEntry a := by
  have htyped : ∀ d ∈ addActiveListeners handler.nextListener .activeTcpListener config.addresses,
      d.typedListener = .activeTcpListener := fun d hd ↦ (of_mem_addActiveListeners hd).1
  rw [addListener]
  dsimp only
  rw [activeListenerDetails_of_isTcp htcp, Option.bind_eq_bind, Option.bind_some,
    length_addActiveListeners, ← forall_mem_addActiveListeners,
    ← isSome_foldlM_insertDetails_iff
      { handler with nextListener := handler.nextListener + config.addresses.length } htyped]
  cases List.foldlM insertDetails _ _ with
  | none => exact Iff.rfl
  | some handler' =>
    show Option.isSome (if _ then _ else _) = true ↔ _
    split_ifs <;> exact Iff.rfl

/-- **A TCP listener is added without harm** if and only if each of its IPv6 addresses is for IPv6
only, or the wildcard. -/
theorem addsSafely_iff (handler : ConnectionHandlerImpl) (htcp : config.IsTcp) :
    AddsSafely handler config ↔
      ∀ i : Ipv6Instance, .ipv6 i ∈ config.addresses → i.v6only = true ∨ isAnyAddress i = true := by
  have hentries : (∀ a ∈ config.addresses, SingleEntry a) ↔
      ∀ i : Ipv6Instance, .ipv6 i ∈ config.addresses → i.v6only = true ∨ isAnyAddress i = true := by
    refine ⟨fun h i hi ↦ h _ hi, fun h a ha ↦ ?_⟩
    match a with
    | .ipv4 _ | .pipe _ | .envoyInternal _ => trivial
    | .ipv6 i => exact h i ha
  constructor
  · intro h
    exact hentries.1 ((isSome_addListener_iff htcp).1 (h.completes none fun _ ↦ (nomatch ·)))
  · intro h
    refine ⟨fun overriddenListener hpresent ↦ ?_, fun i hi hv6only hmapped ↦ ?_⟩
    · match overriddenListener with
      | none => exact (isSome_addListener_iff htcp).2 (hentries.2 h)
      | some tag =>
        rw [addListener]
        exact (congrArg Option.isSome (if_pos (hpresent tag rfl))).trans rfl
    · -- there is no such address
      rcases h i hi with hv6only' | hany
      · exact absurd (hv6only.symm.trans hv6only') Bool.false_ne_true
      · exact absurd hmapped (not_isV4Mapped_of_isAnyAddress hany)

/-- A listener on one address is a TCP listener. -/
theorem isTcp_portEighty (address : Instance) : (portEighty address).IsTcp := ⟨rfl, _, rfl, rfl⟩

/-- The wildcard on port 80 is added. -/
theorem addsSafely_iff_wildcard :
    AddsSafely {} (portEighty (.ipv6 (.ofSockaddr plainLibc
      { sin6Port := 80, sin6Addr := 0, sin6ScopeId := 0 } false))) :=
  (addsSafely_iff {} (isTcp_portEighty _)).2 fun i hi ↦ by
    obtain rfl := Instance.ipv6.inj (List.mem_singleton.1 hi)
    exact .inr rfl

/-- `::ffff:1.2.3.4`, for IPv4 as well: its IPv4 address is null, and dereferenced. -/
theorem mapped_listener_not_added :
    let config := portEighty (.ipv6 (.ofSockaddr plainLibc
      { sin6Port := 80, sin6Addr := 0xffff01020304, sin6ScopeId := 0 } false))
    config.IsTcp ∧ ¬ AddsSafely {} config ∧ addListener {} none config = none := by
  intro config
  have htcp : config.IsTcp := isTcp_portEighty _
  refine ⟨htcp, fun h ↦ ?_, ?_⟩
  · have hmapped := h.mapped _ (List.mem_singleton.2 rfl) rfl (by decide)
    exact hmapped (v4CompatibleAddress_eq_none _)
  · rw [← Option.not_isSome_iff_eq_none, isSome_addListener_iff htcp]
    intro h
    have hentry := List.forall_mem_singleton.1 h
    exact hentry.elim Bool.false_ne_true (by decide)

end ConnectionHandlerImpl

end TcpServer.Server
