import TcpServer.Server.CompatibleAddress

/-!
# Which sockets an updated listener gets

`setupSocketFactoryForListener` copies the sockets of the existing listener if the addresses are the
same and the socket options are. The first is told by `hasCompatibleAddress`; the second is told by
`socketOptionsEqual`, which compares nothing and says no. It is asked only under the runtime flag.
So with the flag no listener that has an address inherits the sockets, and the accept queue of the
old sockets is lost in an update that changes nothing (`inheritsSockets_iff`).

What the constructor of a socket does is not fixed: inheriting is to get the sockets of the existing
listener whatever the constructor would have made. A listener without addresses inherits them in the
other branch as well, since there is nothing to make, and it is the only one that does.
-/

namespace TcpServer.Server

open Network

/-- A call in which the three functions throw nothing besides their own exceptions. -/
def CallEnv.plain (updateListenerSocketOptions : Bool)
    (listenSocketFactoryImpl : Instance → SocketType → Text → BindType → Bool →
      Except EnvoyException ListenSocketFactory) : CallEnv :=
  { updateListenerSocketOptions, listenSocketFactoryImpl, thrown := fun _ ↦ none }

/-- The new listener differs neither in its addresses nor in what a listener has of socket options:
the configuration that `socketOptionsEqual` is to compare is not there. -/
structure UpdatesNothing (newListener existingListener : ListenerImpl) : Prop where
  /-- They have one socket type. -/
  socketType_eq : existingListener.socketType = newListener.socketType
  /-- They have the same addresses, in some order. -/
  sameAddresses : SameAddresses existingListener.addresses newListener.addresses
  /-- They reuse their port both or not at all. -/
  reusePort_eq : existingListener.reusePort = newListener.reusePort

/-- The new listener gets copies of the sockets of the existing one, in order, and nothing else
happens: that is so whatever the constructor of `ListenSocketFactoryImpl` does, which would bind. -/
def InheritsSockets (updateListenerSocketOptions : Bool)
    (newListener existingListener : ListenerImpl) :
    Prop :=
  ∀ listenSocketFactoryImpl,
    setupSocketFactoryForListener (.plain updateListenerSocketOptions listenSocketFactoryImpl)
        newListener existingListener =
      .ok { newListener with
        socketFactories := newListener.socketFactories ++ existingListener.socketFactories }

variable {flag : Bool} {newListener existingListener : ListenerImpl}
  {make : Instance → SocketType → Text → BindType → Bool →
    Except EnvoyException ListenSocketFactory}

/-! ### New sockets and copies

`clone()` copies the factories of the existing listener behind those that the new one has. The other
way to sockets runs the constructor for each address, in order.
-/

/-- Copies of all factories are added in their order. -/
theorem cloneSocketFactoryFrom_eq (listener other : ListenerImpl) :
    listener.cloneSocketFactoryFrom other =
      { listener with socketFactories := listener.socketFactories ++ other.socketFactories } := by
  rw [ListenerImpl.cloneSocketFactoryFrom]
  induction other.socketFactories generalizing listener with
  | nil => rw [List.foldl_nil, List.append_nil]
  | cons f fs ih =>
    rw [List.foldl_cons, ih, ListenerImpl.addSocketFactory]
    show ({ listener with socketFactories := listener.socketFactories ++ [f] ++ fs } :
      ListenerImpl) = _
    rw [List.append_assoc, List.singleton_append]

/-- A listener without addresses needs no sockets. -/
theorem createListenSocketFactory_nil (h : newListener.addresses = []) :
    createListenSocketFactory (.plain flag make) newListener = .ok newListener := by
  show newListener.addresses.foldlM _ _ = _
  rw [h]
  rfl

/-- A listener that has an address is not given its sockets without the constructor. -/
theorem createListenSocketFactory_throws (h : newListener.addresses ≠ []) (e : EnvoyException) :
    createListenSocketFactory (.plain flag fun _ _ _ _ _ ↦ .error e) newListener = .error e := by
  obtain ⟨address, addresses, heq⟩ := List.exists_cons_of_ne_nil h
  show newListener.addresses.foldlM _ _ = _
  rw [heq]
  rfl

/-- New sockets are the sockets of the existing listener only if there are none. -/
theorem forall_createListenSocketFactory_iff :
    (∀ make, createListenSocketFactory (.plain flag make) newListener =
      .ok { newListener with
        socketFactories := newListener.socketFactories ++ existingListener.socketFactories }) ↔
      newListener.addresses = [] ∧ existingListener.socketFactories = [] := by
  constructor
  · intro h
    have haddresses : newListener.addresses = [] := by
      by_contra hne
      have hthrows := (createListenSocketFactory_throws hne ⟨[]⟩).symm.trans (h _)
      exact nomatch hthrows
    have hok := h fun _ _ _ _ _ ↦ .error ⟨[]⟩
    rw [createListenSocketFactory_nil haddresses] at hok
    have hsockets : newListener.socketFactories =
        newListener.socketFactories ++ existingListener.socketFactories :=
      congrArg ListenerImpl.socketFactories (Except.ok.inj hok)
    exact ⟨haddresses, List.self_eq_append_right.1 hsockets⟩
  · rintro ⟨haddresses, hsockets⟩ make
    rw [createListenSocketFactory_nil haddresses, hsockets, List.append_nil]

/-! ### The decision

The flag decides what is looked at. Without it the addresses alone are compared, and the sockets are
copied if they match. With it the socket options are compared as well, which are never equal.
-/

/-- Without the flag the addresses decide. -/
theorem setupSocketFactoryForListener_flag_off :
    setupSocketFactoryForListener (.plain false make) newListener existingListener =
      if existingListener.hasCompatibleAddress newListener then
        .ok { newListener with
          socketFactories := newListener.socketFactories ++ existingListener.socketFactories }
      else createListenSocketFactory (.plain false make) newListener := by
  rw [← cloneSocketFactoryFrom_eq]
  by_cases hcompatible : existingListener.hasCompatibleAddress newListener
  · rw [if_pos hcompatible]
    exact if_neg (not_not.2 ⟨hcompatible, rfl⟩)
  · rw [if_neg hcompatible]
    exact if_pos fun h ↦ hcompatible h.1

/-- Under the flag the addresses do not matter. -/
theorem setupSocketFactoryForListener_flag_on
    (hreuse : existingListener.reusePort = newListener.reusePort) :
    setupSocketFactoryForListener (.plain true make) newListener existingListener =
      if newListener.reusePort then createListenSocketFactory (.plain true make) newListener
      else .error ⟨"Listener ".toList ++ newListener.name ++
        (": doesn't support update any socket options when the reuse port " ++
          "isn't enabled").toList⟩ := by
  have hsame : ¬ newListener.reusePort ≠ existingListener.reusePort := not_not.2 hreuse.symm
  by_cases hreusePort : newListener.reusePort
  · rw [if_pos hreusePort]
    show (if newListener.reusePort ≠ existingListener.reusePort then _ else _) = _
    rw [if_neg hsame]
    show (if ¬ false ∧ newListener.reusePort = false then _ else _) = _
    rw [if_neg fun h ↦ Bool.false_ne_true (h.2.symm.trans hreusePort)]
    exact if_pos fun h ↦ Bool.false_ne_true h.2
  · rw [if_neg hreusePort]
    show (if newListener.reusePort ≠ existingListener.reusePort then _ else _) = _
    rw [if_neg hsame]
    -- `socketOptionsEqual` says no
    exact if_pos ⟨Bool.false_ne_true, Bool.eq_false_iff.2 hreusePort⟩

/-- Two listeners without addresses have compatible addresses. -/
theorem hasCompatibleAddress_of_nil (h : UpdatesNothing newListener existingListener)
    (hnil : newListener.addresses = []) : existingListener.hasCompatibleAddress newListener =
    true := by
  have hnil' : existingListener.addresses = [] :=
    List.eq_nil_of_length_eq_zero (h.sameAddresses.length_eq.trans (congrArg List.length hnil))
  have hdiffers : ¬ (existingListener.socketType ≠ newListener.socketType ∨
      existingListener.addresses.length ≠ newListener.addresses.length) :=
    not_or.2 ⟨not_not.2 h.socketType_eq, not_not.2 h.sameAddresses.length_eq⟩
  rw [ListenerImpl.hasCompatibleAddress, if_neg hdiffers, hnil']
  rfl

/-- Without the flag, the sockets are inherited exactly if the addresses are found to match. -/
theorem inheritsSockets_flag_off_iff (h : UpdatesNothing newListener existingListener) :
    InheritsSockets false newListener existingListener ↔
      existingListener.hasCompatibleAddress newListener = true := by
  constructor
  · intro hinherits
    by_contra hnot
    have hcreates : ∀ make, createListenSocketFactory (.plain false make) newListener =
        .ok { newListener with
          socketFactories := newListener.socketFactories ++ existingListener.socketFactories } := by
      intro make
      rw [← hinherits make, setupSocketFactoryForListener_flag_off, if_neg hnot]
    exact hnot (hasCompatibleAddress_of_nil h (forall_createListenSocketFactory_iff.1 hcreates).1)
  · intro hcompatible make
    rw [setupSocketFactoryForListener_flag_off, if_pos hcompatible]

/-- With the flag, they are inherited only if there is nothing to inherit. -/
theorem inheritsSockets_flag_on_iff (h : UpdatesNothing newListener existingListener) :
    InheritsSockets true newListener existingListener ↔
      newListener.reusePort = true ∧ newListener.addresses = [] ∧
        existingListener.socketFactories = [] := by
  by_cases hreusePort : newListener.reusePort
  · rw [and_iff_right hreusePort, ← forall_createListenSocketFactory_iff]
    refine forall_congr' fun make ↦ ?_
    rw [setupSocketFactoryForListener_flag_on h.reusePort_eq, if_pos hreusePort]
  · refine iff_of_false (fun hinherits ↦ ?_) fun hon ↦ hreusePort hon.1
    have hok := hinherits fun _ _ _ _ _ ↦ .error ⟨[]⟩
    rw [setupSocketFactoryForListener_flag_on h.reusePort_eq, if_neg hreusePort] at hok
    exact nomatch hok

/-- **An update that changes nothing inherits the sockets** without the flag, if the search finds
every address again, as it does where they are IP addresses, and with the flag if there is nothing
to inherit. -/
theorem inheritsSockets_iff (h : UpdatesNothing newListener existingListener) :
    (InheritsSockets flag newListener existingListener ↔
      (flag = false ∧ existingListener.hasCompatibleAddress newListener = true) ∨
        (flag = true ∧ newListener.reusePort = true ∧ newListener.addresses = [] ∧
          existingListener.socketFactories = [])) ∧
      (AllIp existingListener.addresses → existingListener.hasCompatibleAddress newListener =
        true) := by
  refine ⟨?_, fun hip ↦ (hasCompatibleAddress_iff hip).2 ⟨h.socketType_eq, h.sameAddresses⟩⟩
  match flag with
  | false =>
    rw [inheritsSockets_flag_off_iff h]
    exact ⟨fun hcompatible ↦ .inl ⟨rfl, hcompatible⟩, fun hor ↦ hor.elim And.right (nomatch ·.1)⟩
  | true =>
    rw [inheritsSockets_flag_on_iff h]
    exact ⟨fun hon ↦ .inr ⟨rfl, hon⟩, fun hor ↦ hor.elim (nomatch ·.1) And.right⟩

/-- A listener on port 80 of the loopback address. -/
def loopbackListener (id : ℕ) (reusePort : Bool) : ListenerImpl :=
  { id, versionInfo := [], name := "ingress".toList, addedViaApi := true, workersStarted := false,
    addresses := [.ipv4 (.ofSockaddr { sinPort := 80, sinAddr := 0x7f000001 })], reusePort }

/-- Two listeners on the loopback address, of which the second updates nothing. -/
theorem updatesNothing_loopback (reusePort : Bool) :
    UpdatesNothing (loopbackListener 1 reusePort) (loopbackListener 0 reusePort) :=
  ⟨rfl, .of_perm (.refl _), rfl⟩

theorem inheritsSockets_loopback :
    InheritsSockets false (loopbackListener 1 true) (loopbackListener 0 true) :=
  (inheritsSockets_iff (updatesNothing_loopback true)).1.2 (.inl ⟨rfl, by decide⟩)

/-- With the flag the sockets of the loopback listener are not inherited, whether it reuses the port
or not. In the second case the update is rejected. -/
theorem loopback_not_inherited :
    (∀ reusePort, UpdatesNothing (loopbackListener 1 reusePort) (loopbackListener 0 reusePort)) ∧
      ¬ InheritsSockets true (loopbackListener 1 true) (loopbackListener 0 true) ∧
      ¬ InheritsSockets true (loopbackListener 1 false) (loopbackListener 0 false) := by
  refine ⟨updatesNothing_loopback, fun h ↦ ?_, fun h ↦ ?_⟩
  · have haddresses := ((inheritsSockets_flag_on_iff (updatesNothing_loopback true)).1 h).2.1
    exact nomatch haddresses
  · have hreusePort := ((inheritsSockets_flag_on_iff (updatesNothing_loopback false)).1 h).1
    exact nomatch hreusePort

end TcpServer.Server
