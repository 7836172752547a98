import TcpServer.Network.Copy
import TcpServer.Server.SocketInheritance

/-!
# Addresses that another listener has

Before it makes sockets for a new listener, `setNewOrDrainingSocketFactory` looks for its addresses
among those of the warming and the active listeners. The search finds what it is to find
(`hasListenerWithDuplicatedAddress_iff`), but the exception that follows is commented out. The
sockets are made anyway, so the call does what is asked of it only where there is nothing to find
(`rejectsDuplicates_iff`).

A listener on a port that the kernel is to choose excludes no other, and neither do listeners of
different socket types. The message of the exception is composed from the addresses, as in the
source, and then thrown away.
-/

namespace TcpServer.Server

open Network

/-- The constructor of `ListenSocketFactoryImpl`. -/
abbrev SocketFactoryConstructor := Instance → SocketType → Text → BindType → Bool →
  Except EnvoyException ListenSocketFactory

namespace ListenerImpl

/-- `ListenerImpl::bindType`. -/
def bindType (listener : ListenerImpl) : BindType :=
  if listener.bindToPort then if listener.reusePort then .reusePort else .noReusePort else .noBind

/-- `ListenerImpl::hasDuplicatedAddress`. -/
def hasDuplicatedAddress (listener other : ListenerImpl) : Bool :=
  if listener.socketType ≠ other.socketType then false
  else other.addresses.any fun otherAddr ↦
    (match otherAddr.ip with
      | none => true
      | some ip => ip.port ≠ 0 ∨ ¬ listener.bindToPort) && listener.addresses.any otherAddr.eq

end ListenerImpl

/-- `ListenerManagerImpl::hasListenerWithDuplicatedAddress`. -/
def hasListenerWithDuplicatedAddress (list : List ListenerImpl) (listener : ListenerImpl) : Bool :=
  list.any fun existingListener ↦ existingListener.hasDuplicatedAddress listener

/-- The message that is composed for a listener with a duplicate address. -/
def duplicateAddressMessage (name : Text) (listener : ListenerImpl) : Text :=
  "error adding listener: '".toList ++ name ++ "' has duplicate address '".toList ++
    List.intercalate [','] (listener.addresses.map Instance.asString) ++
      "' as existing listener".toList

/-- The loop of `createListenSocketFactory`, with the listener it leaves, which is a reference. -/
def addSocketFactories (make : Instance → Except EnvoyException ListenSocketFactory) :
    List Instance → ListenerImpl → Except EnvoyException Unit × ListenerImpl
  | [], listener => (.ok (), listener)
  | address :: addresses, listener =>
    match make address with
    | .error e => (.error e, listener)
    | .ok socketFactory =>
      addSocketFactories make addresses (listener.addSocketFactory socketFactory)

namespace ListenerManagerImpl

/-- `setNewOrDrainingSocketFactory`, with what it leaves of the listener and of the manager. The
message is composed, and neither logged nor thrown. -/
def setNewOrDrainingSocketFactory (make : SocketFactoryConstructor) (name : Text)
    (listener : ListenerImpl) (m : ListenerManagerImpl) :
    Except EnvoyException Unit × ListenerImpl × ListenerManagerImpl :=
  let _message :=
    if hasListenerWithDuplicatedAddress m.warmingListeners listener ||
        hasListenerWithDuplicatedAddress m.activeListeners listener then
      some (duplicateAddressMessage name listener)
    else none
  let (returned, listener) := addSocketFactories
    (fun address ↦ make address listener.socketType listener.name listener.bindType
      listener.mptcpEnabled) listener.addresses listener
  (returned, listener, m)

end ListenerManagerImpl

/-! ### What is asked -/

/-- A listener that has the address keeps others from it. Port 0 stands for any port, if it is
bound. -/
def Exclusive (bindToPort : Bool) (address : Instance) : Prop :=
  ∀ ip, address.ip = some ip → ip.port ≠ 0 ∨ bindToPort = false

/-- The listeners have one socket type, and an address in common that is exclusive. -/
def Duplicates (existingListener listener : ListenerImpl) : Prop :=
  existingListener.socketType = listener.socketType ∧
    ∃ otherAddr ∈ listener.addresses, Exclusive existingListener.bindToPort otherAddr ∧
      ∃ addr ∈ existingListener.addresses, otherAddr.eq addr = true

/-- A listener of the manager has an address of `listener`. -/
def ListenerManagerImpl.HasDuplicate (m : ListenerManagerImpl) (listener : ListenerImpl) : Prop :=
  ∃ existingListener ∈ m.warmingListeners ++ m.activeListeners, Duplicates existingListener listener

/-- A listener whose address is taken is rejected before any socket is made, and another one gets a
socket factory for every address, in order. -/
structure RejectsDuplicates (m : ListenerManagerImpl) (name : Text) (listener : ListenerImpl) :
    Prop where
  /-- A listener with an address that is taken is rejected, and nothing has changed. -/
  rejects : m.HasDuplicate listener →
    ∀ make, ∃ e, m.setNewOrDrainingSocketFactory make name listener = (.error e, listener, m)
  /-- Any other listener gets the factories of its sockets, in the order of its addresses, if the
  constructor throws nothing. -/
  creates : ¬ m.HasDuplicate listener →
    ∀ make : Instance → SocketType → Text → BindType → Bool → ListenSocketFactory,
      m.setNewOrDrainingSocketFactory (fun a s n b p ↦ .ok (make a s n b p)) name listener =
        (.ok (), { listener with
          socketFactories := listener.socketFactories ++ listener.addresses.map fun address ↦
            make address listener.socketType listener.name listener.bindType listener.mptcpEnabled
              }, m)

variable {m : ListenerManagerImpl} {name : Text} {listener existingListener : ListenerImpl}

/-! ### The search

The source writes the test address by address, with a branch for addresses that have no port. It
says that the address is exclusive, and that the other listener has it.
-/

theorem exclusive_iff {bindToPort : Bool} {address : Instance} :
    (match address.ip with
      | none => true
      | some ip => decide (ip.port ≠ 0 ∨ ¬ bindToPort)) = true ↔ Exclusive bindToPort address := by
  rw [Exclusive]
  match address.ip with
  | none => exact iff_of_true rfl fun _ h ↦ nomatch h
  | some ip =>
    rw [decide_eq_true_iff, Bool.not_eq_true]
    exact ⟨fun h _ hip ↦ Option.some.inj hip ▸ h, fun h ↦ h ip rfl⟩

/-- The test of two listeners finds what they have in common. -/
theorem hasDuplicatedAddress_iff :
    existingListener.hasDuplicatedAddress listener = true ↔
      Duplicates existingListener listener := by
  rw [ListenerImpl.hasDuplicatedAddress, Duplicates]
  split_ifs with htype
  · exact iff_of_false id fun h ↦ htype h.1
  · rw [and_iff_right (not_not.1 htype), List.any_eq_true]
    refine exists_congr fun otherAddr ↦ and_congr_right fun _ ↦ ?_
    rw [Bool.and_eq_true, exclusive_iff, List.any_eq_true]

/-- The search in both lists finds a listener with an address of the new one. -/
theorem hasListenerWithDuplicatedAddress_iff :
    (hasListenerWithDuplicatedAddress m.warmingListeners listener ||
        hasListenerWithDuplicatedAddress m.activeListeners listener) = true ↔
      m.HasDuplicate listener := by
  rw [hasListenerWithDuplicatedAddress, hasListenerWithDuplicatedAddress, ← List.any_append,
    List.any_eq_true]
  exact exists_congr fun _ ↦ and_congr_right fun _ ↦ hasDuplicatedAddress_iff

/-! ### The sockets

The sockets are made address by address, and a listener that is a reference keeps those that were
made before an exception.
-/

/-- If the constructor throws nothing, every address gets its factory. -/
theorem addSocketFactories_ok (make : Instance → ListenSocketFactory) (addresses : List Instance)
    (listener : ListenerImpl) :
    addSocketFactories (fun address ↦ .ok (make address)) addresses listener =
      (.ok (), { listener with
        socketFactories := listener.socketFactories ++ addresses.map make }) := by
  induction addresses generalizing listener with
  | nil => rw [List.map_nil, List.append_nil, addSocketFactories]
  | cons address addresses ih =>
    rw [addSocketFactories]
    show addSocketFactories _ addresses _ = _
    rw [ih, ListenerImpl.addSocketFactory]
    show (_, { listener with
      socketFactories := (listener.socketFactories ++ [make address]) ++ addresses.map make }) = _
    rw [List.append_assoc, List.singleton_append, List.map_cons]

/-- The loop, without what it leaves in the listener when the constructor throws. -/
theorem addSocketFactories_eq_foldlM (make : Instance → Except EnvoyException ListenSocketFactory)
    (addresses : List Instance) (listener : ListenerImpl) :
    addresses.foldlM (fun l address ↦ do return l.addSocketFactory (← make address)) listener =
      (addSocketFactories make addresses listener).1.map
        fun _ ↦ (addSocketFactories make addresses listener).2 := by
  induction addresses generalizing listener with
  | nil => rfl
  | cons address addresses ih =>
    rw [List.foldlM_cons, addSocketFactories]
    cases make address with
    | error e => rfl
    | ok socketFactory => exact ih (listener.addSocketFactory socketFactory)

/-- A call that throws has lost its listener, as far as the manager's own calls are concerned. -/
theorem setNewOrDrainingSocketFactory_eq (flag : Bool) (make : SocketFactoryConstructor) :
    setNewOrDrainingSocketFactory (.plain flag make) listener =
      (m.setNewOrDrainingSocketFactory make name listener).1.map
        fun _ ↦ (m.setNewOrDrainingSocketFactory make name listener).2.1 :=
  addSocketFactories_eq_foldlM _ listener.addresses listener

/-- With a constructor that throws nothing, the call returns whether the addresses are taken or not.
-/
theorem setNewOrDrainingSocketFactory_ok
    (make : Instance → SocketType → Text → BindType → Bool → ListenSocketFactory) :
    m.setNewOrDrainingSocketFactory (fun a s n b p ↦ .ok (make a s n b p)) name listener =
      (.ok (), { listener with
        socketFactories := listener.socketFactories ++ listener.addresses.map fun address ↦
          make address listener.socketType listener.name listener.bindType listener.mptcpEnabled },
        m) := by
  rw [ListenerManagerImpl.setNewOrDrainingSocketFactory]
  show ((addSocketFactories _ _ _).1, (addSocketFactories _ _ _).2, m) = _
  rw [addSocketFactories_ok]

/-- With a constructor that returns, the call returns. -/
theorem not_rejectsDuplicates (hdup : m.HasDuplicate listener) :
    ¬ RejectsDuplicates m name listener := by
  intro h
  obtain ⟨e, he⟩ := h.rejects hdup fun address socketType name bindType mptcpEnabled ↦
    .ok ⟨address, socketType, name, bindType, mptcpEnabled⟩
  rw [setNewOrDrainingSocketFactory_ok] at he
  exact nomatch congrArg Prod.fst he

/-- **Duplicate addresses are looked for, and not rejected.** The search finds what it is to find,
and the call does what is asked of it if and only if there is nothing to find. What the manager's
own calls get from it is the new listener, or its exception. -/
theorem rejectsDuplicates_iff (m : ListenerManagerImpl) (name : Text) (listener : ListenerImpl) :
    ((hasListenerWithDuplicatedAddress m.warmingListeners listener ||
        hasListenerWithDuplicatedAddress m.activeListeners listener) = true ↔
      m.HasDuplicate listener) ∧
    (RejectsDuplicates m name listener ↔ ¬ m.HasDuplicate listener) ∧
    ∀ flag make, setNewOrDrainingSocketFactory (.plain flag make) listener =
      (m.setNewOrDrainingSocketFactory make name listener).1.map
        fun _ ↦ (m.setNewOrDrainingSocketFactory make name listener).2.1 := by
  refine ⟨hasListenerWithDuplicatedAddress_iff, ⟨fun h hdup ↦ not_rejectsDuplicates hdup h, ?_⟩,
    setNewOrDrainingSocketFactory_eq⟩
  intro hfree
  exact ⟨fun hdup ↦ absurd hdup hfree, fun _ make ↦ setNewOrDrainingSocketFactory_ok make⟩

/-- A second listener on a port of the loopback address. -/
theorem loopback_not_rejected :
    ¬ RejectsDuplicates { activeListeners := [loopbackListener 0 true] } "egress".toList
        (loopbackListener 1 true) :=
  not_rejectsDuplicates (hasListenerWithDuplicatedAddress_iff.1 (by decide))

end TcpServer.Server
