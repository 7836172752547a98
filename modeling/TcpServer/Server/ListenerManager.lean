import TcpServer.Lib.Keyed
import TcpServer.Network.Address

/-!
# The lists of the listener manager

`addOrUpdateListenerInternal` makes a new listener, gives it sockets, and only then puts it into
`active_listeners_` or `warming_listeners_`. What gives it sockets may throw, and touches nothing
but the new listener.

The lists are kept by name. A listener that enters a list takes the place of the one with its name,
or the last place (`addOrUpdateListenerInternal_cases`), so names stay distinct and the search for
the last listener of a name finds the only one. Whether a listener enters the active or the warming
list is told by `workers_started_` alone: that the update of a warming listener does not depend on
it is no exception, since before the workers are started nothing is warming (`Consistent`).

What a call finds outside of the manager, its environment, is arbitrary: any of the functions may
throw, and so may the constructor that binds a socket. A call that throws is one that has changed
nothing but the counter of the objects. Where nothing of that throws, the call returns
(`Consistent.returns`), as every listener of this source reuses its port.
-/

namespace TcpServer.Server

open Network Keyed

/-- An `EnvoyException`. -/
structure EnvoyException where
  /-- The text of the exception. -/
  what : Text
deriving DecidableEq

/-- `Network::Socket::Type`. -/
inductive SocketType
  | stream
  | datagram
deriving DecidableEq

/-- `ListenerComponentFactory::BindType`. -/
inductive BindType
  | noBind
  | noReusePort
  | reusePort
deriving DecidableEq

/-- A `ListenSocketFactoryImpl`, as far as the header has it. -/
structure ListenSocketFactory where
  /-- The address that the socket is bound to. -/
  localAddress : Instance
  /-- The type of the socket. -/
  socketType : SocketType
  /-- The name of the listener that the socket was made for. -/
  listenerName : Text
  /-- How the socket is bound. -/
  bindType : BindType
  /-- Whether the socket is for multipath TCP. -/
  mptcpEnabled : Bool
deriving DecidableEq

/-- A `ListenerImpl`. `id` is the identity of the object. -/
structure ListenerImpl where
  /-- The identity of the object. -/
  id : ℕ
  /-- `version_info_`. -/
  versionInfo : Text
  /-- `name_`, under which the manager finds the listener. -/
  name : Text
  /-- `added_via_api_`. -/
  addedViaApi : Bool
  /-- `workers_started_`, as it was when the listener was made. -/
  workersStarted : Bool
  /-- `addresses_`. -/
  addresses : List Instance := []
  /-- `socket_type_`. -/
  socketType : SocketType := .stream
  /-- `socket_factories_`, one for each address once the listener was given its sockets. -/
  socketFactories : List ListenSocketFactory := []
  /-- `bind_to_port_`. -/
  bindToPort : Bool := true
  /-- `mptcp_enabled_`. -/
  mptcpEnabled : Bool := false
  /-- `hash_`. -/
  hash : UInt64 := 11
  /-- `reuse_port_`. -/
  reusePort : Bool := true
deriving DecidableEq

/-- The functions that may throw. -/
inductive SocketSetup
  | setupSocketFactoryForListener
  | setNewOrDrainingSocketFactory
  | createListenSocketFactory
deriving DecidableEq

/-- What a call of `addOrUpdateListenerInternal` finds outside of the manager: the runtime flag
`ENABLE_UPDATE_LISTENER_SOCKET_OPTIONS_RUNTIME_FLAG`, the constructor of `ListenSocketFactoryImpl`,
which binds a socket, and the exceptions that the three functions throw besides their own. -/
structure CallEnv where
  /-- The runtime flag under which the socket options are compared. -/
  updateListenerSocketOptions : Bool
  /-- The constructor that binds the socket of an address. -/
  listenSocketFactoryImpl : Instance → SocketType → Text → BindType → Bool →
    Except EnvoyException ListenSocketFactory
  /-- The exceptions of the functions that the manager calls. -/
  thrown : SocketSetup → Option EnvoyException

namespace CallEnv

/-- A function that throws does so before it returns; what it has done to the new listener by then
is lost with the listener. -/
def entering (env : CallEnv) (f : SocketSetup) : Except EnvoyException Unit :=
  match env.thrown f with
  | some e => .error e
  | none => .ok ()

/-- Nothing outside of the manager throws: neither the three functions, but for their own
exceptions, nor the constructor that binds a socket. -/
structure Quiet (env : CallEnv) : Prop where
  /-- The functions throw nothing but their own exceptions. -/
  thrown : ∀ f, env.thrown f = none
  /-- A socket is bound. -/
  binds : ∀ address socketType name bindType mptcpEnabled,
    ∃ f, env.listenSocketFactoryImpl address socketType name bindType mptcpEnabled = .ok f

end CallEnv

namespace ListenerImpl

/-- The constructor. The addresses of the configuration are commented out. -/
def construct (id : ℕ) (versionInfo name : Text) (addedViaApi workersStarted : Bool) :
    ListenerImpl :=
  { id, versionInfo, name, addedViaApi, workersStarted }

/-- `ListenerImpl::socketOptionsEqual`, which returns false whatever the options are. -/
def socketOptionsEqual (_listener _other : ListenerImpl) : Bool := false

/-- The loop of `hasCompatibleAddress`. -/
def matchAddresses : List Instance → List Instance → Bool
  | [], _ => true
  | addr :: addresses, otherAddresses =>
    if otherAddresses.any addr.eq then matchAddresses addresses (otherAddresses.eraseP addr.eq)
    else false

/-- `ListenerImpl::hasCompatibleAddress`. -/
def hasCompatibleAddress (listener other : ListenerImpl) : Bool :=
  if listener.socketType ≠ other.socketType ∨
    listener.addresses.length ≠ other.addresses.length then
    false
  else matchAddresses listener.addresses other.addresses

/-- `ListenerImpl::addSocketFactory`. -/
def addSocketFactory (listener : ListenerImpl) (socketFactory : ListenSocketFactory) :
    ListenerImpl :=
  { listener with socketFactories := listener.socketFactories ++ [socketFactory] }

/-- `clone()` copies a factory with its sockets. -/
def cloneSocketFactoryFrom (listener other : ListenerImpl) : ListenerImpl :=
  other.socketFactories.foldl addSocketFactory listener

end ListenerImpl

/-- `createListenSocketFactory`. -/
def createListenSocketFactory (env : CallEnv) (listener : ListenerImpl) :
    Except EnvoyException ListenerImpl := do
  env.entering .createListenSocketFactory
  let bindType : BindType :=
    if listener.bindToPort then if listener.reusePort then .reusePort else .noReusePort else .noBind
  listener.addresses.foldlM (fun l address ↦ do
    let socketFactory ← env.listenSocketFactoryImpl address listener.socketType listener.name
      bindType
      listener.mptcpEnabled
    return l.addSocketFactory socketFactory) listener

/-- `setNewOrDrainingSocketFactory`. The exception for an address that another listener has is
commented out. -/
def setNewOrDrainingSocketFactory (env : CallEnv) (listener : ListenerImpl) :
    Except EnvoyException ListenerImpl := do
  env.entering .setNewOrDrainingSocketFactory
  createListenSocketFactory env listener

/-- `setupSocketFactoryForListener`. -/
def setupSocketFactoryForListener (env : CallEnv) (newListener existingListener : ListenerImpl) :
    Except EnvoyException ListenerImpl := do
  env.entering .setupSocketFactoryForListener
  let mut sameSocketOptions := true
  if env.updateListenerSocketOptions then
    if newListener.reusePort ≠ existingListener.reusePort then
      throw ⟨"Listener ".toList ++ newListener.name ++
        ": reuse port cannot be changed during an update".toList⟩
    sameSocketOptions := existingListener.socketOptionsEqual newListener
    if ¬ sameSocketOptions ∧ newListener.reusePort = false then
      throw ⟨"Listener ".toList ++ newListener.name ++
        ": doesn't support update any socket options when the reuse port isn't enabled".toList⟩
  if ¬ (existingListener.hasCompatibleAddress newListener ∧ sameSocketOptions) then
    setNewOrDrainingSocketFactory env newListener
  else
    return newListener.cloneSocketFactoryFrom existingListener

/-- The listeners of a `ListenerManagerImpl`. `nextId` is the identity of the next object. -/
structure ListenerManagerImpl where
  /-- `active_listeners_`. -/
  activeListeners : List ListenerImpl := []
  /-- `warming_listeners_`. -/
  warmingListeners : List ListenerImpl := []
  /-- `workers_started_`. -/
  workersStarted : Bool := false
  /-- The identity of the next object. -/
  nextId : ℕ := 0

/-- `getListenerByName`, an iterator. -/
def getListenerByName (listeners : List ListenerImpl) (name : Text) :
    Option (Fin listeners.length) :=
  lastWhere (fun l ↦ l.name = name) listeners

namespace ListenerManagerImpl

/-- `addOrUpdateListenerInternal`, with the exception it throws or what it returns. -/
def addOrUpdateListenerInternal (env : CallEnv) (versionInfo : Text) (addedViaApi : Bool)
    (name : Text)
    (m : ListenerManagerImpl) : Except EnvoyException Bool × ListenerManagerImpl :=
  let existingActiveListener := getListenerByName m.activeListeners name
  let existingWarmingListener := getListenerByName m.warmingListeners name
  let newListener := ListenerImpl.construct m.nextId versionInfo name addedViaApi m.workersStarted
  let allocated := { m with nextId := m.nextId + 1 }
  match existingWarmingListener with
  | some it =>
    match setupSocketFactoryForListener env newListener (m.warmingListeners.get it) with
    | .error e => (.error e, allocated)
    | .ok newListener =>
      (.ok true, { allocated with warmingListeners := m.warmingListeners.set it newListener })
  | none =>
    match existingActiveListener with
    | some it =>
      match setupSocketFactoryForListener env newListener (m.activeListeners.get it) with
      | .error e => (.error e, allocated)
      | .ok newListener =>
        if m.workersStarted then
          (.ok true, { allocated with warmingListeners := m.warmingListeners ++ [newListener] })
        else
          (.ok true, { allocated with activeListeners := m.activeListeners.set it newListener })
    | none =>
      match setNewOrDrainingSocketFactory env newListener with
      | .error e => (.error e, allocated)
      | .ok newListener =>
        if m.workersStarted then
          (.ok true, { allocated with warmingListeners := m.warmingListeners ++ [newListener] })
        else
          (.ok true, { allocated with activeListeners := m.activeListeners ++ [newListener] })

/-- What `startWorkers` does to the manager. It hands the active listeners to the workers, and
leaves the lists as they are. -/
def startWorkers (m : ListenerManagerImpl) : ListenerManagerImpl :=
  { m with workersStarted := true }

end ListenerManagerImpl

/-- A call of the manager. -/
inductive ManagerCall
  | addOrUpdateListenerInternal (env : CallEnv) (versionInfo : Text) (addedViaApi : Bool)
      (name : Text)
  | startWorkers

namespace ListenerManagerImpl

/-- The manager after a call. -/
def step (m : ListenerManagerImpl) : ManagerCall → ListenerManagerImpl
  | .addOrUpdateListenerInternal env versionInfo addedViaApi name =>
    (m.addOrUpdateListenerInternal env versionInfo addedViaApi name).2
  | .startWorkers => m.startWorkers

/-- The manager after a sequence of calls. -/
def after (calls : List ManagerCall) : ListenerManagerImpl := calls.foldl step {}

end ListenerManagerImpl

/-! ### Sockets

Of what a call does before it touches the lists only one thing matters here: the new listener is
what the constructor made of it, but for its sockets.
-/

/-- `l` is `listener` with other sockets. -/
def GivenSockets (listener l : ListenerImpl) : Prop :=
  ∃ socketFactories, l = { listener with socketFactories }

theorem GivenSockets.refl (l : ListenerImpl) : GivenSockets l l := ⟨l.socketFactories, rfl⟩

/-- Giving sockets twice is giving sockets. -/
theorem GivenSockets.trans {a b c : ListenerImpl} (hab : GivenSockets a b)
    (hbc : GivenSockets b c) :
    GivenSockets a c := by
  obtain ⟨fs, rfl⟩ := hab
  obtain ⟨gs, rfl⟩ := hbc
  exact ⟨gs, rfl⟩

theorem givenSockets_addSocketFactory (l : ListenerImpl) (socketFactory : ListenSocketFactory) :
    GivenSockets l (l.addSocketFactory socketFactory) := ⟨_, rfl⟩

theorem givenSockets_cloneSocketFactoryFrom (listener other : ListenerImpl) :
    GivenSockets listener (listener.cloneSocketFactoryFrom other) := by
  rw [ListenerImpl.cloneSocketFactoryFrom]
  induction other.socketFactories generalizing listener with
  | nil => exact .refl listener
  | cons f fs ih => exact (givenSockets_addSocketFactory listener f).trans (ih _)

variable {env : CallEnv} {listener existingListener l : ListenerImpl}

/-- What comes behind an exception has not been reached. -/
theorem of_entering_bind {f : SocketSetup} {rest : Except EnvoyException ListenerImpl}
    (h : (env.entering f >>= fun _ ↦ rest) = .ok l) : rest = .ok l := by
  rw [CallEnv.entering] at h
  split at h
  · exact nomatch h
  · exact h

theorem givenSockets_createListenSocketFactory
    (h : createListenSocketFactory env listener = .ok l) :
    GivenSockets listener l := by
  have h := of_entering_bind h
  have hfold (make : Instance → Except EnvoyException ListenSocketFactory)
      (addresses : List Instance) (a : ListenerImpl)
      (h : addresses.foldlM (fun l address ↦ do return l.addSocketFactory (← make address)) a =
        .ok l) :
      GivenSockets a l := by
    induction addresses generalizing a with
    | nil => exact Except.ok.inj h ▸ .refl a
    | cons address addresses ih =>
      rw [List.foldlM_cons] at h
      cases hmake : make address with
      | error e =>
        rw [hmake] at h
        exact nomatch h
      | ok f =>
        rw [hmake] at h
        exact (givenSockets_addSocketFactory a f).trans (ih _ h)
  exact hfold _ _ listener h

theorem givenSockets_setNewOrDrainingSocketFactory
    (h : setNewOrDrainingSocketFactory env listener = .ok l) : GivenSockets listener l :=
  givenSockets_createListenSocketFactory (of_entering_bind h)

/-- A listener that is set up is given sockets, in whichever way. -/
theorem givenSockets_setupSocketFactoryForListener
    (h : setupSocketFactoryForListener env listener existingListener = .ok l) :
    GivenSockets listener l := by
  have h := of_entering_bind h
  have hend {same : Bool} (h : (if ¬ (existingListener.hasCompatibleAddress listener ∧ same) then
        setNewOrDrainingSocketFactory env listener
      else return listener.cloneSocketFactoryFrom existingListener) = .ok l) :
      GivenSockets listener l := by
    split_ifs at h
    · exact Except.ok.inj h ▸ givenSockets_cloneSocketFactoryFrom listener existingListener
    · exact givenSockets_setNewOrDrainingSocketFactory h
  dsimp only at h
  by_cases hflag : env.updateListenerSocketOptions
  · rw [if_pos hflag] at h
    split at h
    · exact nomatch h
    · split at h
      · exact nomatch h
      · exact hend h
  · rw [if_neg hflag] at h
    exact hend h

/-! ### Where nothing is thrown

The manager's own exceptions are those of listeners that do not reuse their port. They are the only
ones left where nothing outside of the manager throws.
-/

theorem CallEnv.Quiet.entering (henv : env.Quiet) (f : SocketSetup)
    (rest : Except EnvoyException ListenerImpl) :
    (env.entering f >>= fun _ ↦ rest) = rest := by
  rw [CallEnv.entering, henv.thrown f]
  rfl

/-- Every address gets its sockets. -/
theorem CallEnv.Quiet.createListenSocketFactory (henv : env.Quiet) (listener : ListenerImpl) :
    ∃ l, createListenSocketFactory env listener = .ok l := by
  have hfold {make : Instance → Except EnvoyException ListenSocketFactory}
      (hmake : ∀ address, ∃ f, make address = .ok f) (addresses : List Instance)
      (a : ListenerImpl) :
      ∃ l, addresses.foldlM (fun l address ↦ do return l.addSocketFactory (← make address)) a =
        .ok l := by
    induction addresses generalizing a with
    | nil => exact ⟨a, rfl⟩
    | cons address addresses ih =>
      obtain ⟨f, hf⟩ := hmake address
      rw [List.foldlM_cons, hf]
      exact ih _
  rw [Server.createListenSocketFactory, henv.entering]
  exact hfold (fun address ↦ henv.binds address _ _ _ _) _ listener

theorem CallEnv.Quiet.setNewOrDrainingSocketFactory (henv : env.Quiet) (listener : ListenerImpl) :
    ∃ l, setNewOrDrainingSocketFactory env listener = .ok l := by
  rw [Server.setNewOrDrainingSocketFactory, henv.entering]
  exact henv.createListenSocketFactory listener

/-- Two listeners that reuse their port can follow each other. -/
theorem CallEnv.Quiet.setupSocketFactoryForListener (henv : env.Quiet) (listener : ListenerImpl)
    (hnew : listener.reusePort = true) (hexisting : existingListener.reusePort = true) :
    ∃ l, setupSocketFactoryForListener env listener existingListener = .ok l := by
  have hend (same : Bool) : ∃ l, (if ¬ (existingListener.hasCompatibleAddress listener ∧ same) then
        Server.setNewOrDrainingSocketFactory env listener
      else return listener.cloneSocketFactoryFrom existingListener) = .ok l := by
    split_ifs
    · exact ⟨_, rfl⟩
    · exact henv.setNewOrDrainingSocketFactory listener
  rw [Server.setupSocketFactoryForListener, henv.entering]
  simp only [hnew, hexisting, ne_eq, not_true_eq_false, if_false, Bool.true_eq_false, and_false]
  by_cases hflag : env.updateListenerSocketOptions
  · rw [if_pos hflag]
    exact hend _
  · rw [if_neg hflag]
    simpa only using hend true

/-! ### What a call does

Before the workers are started the new listener enters the active list, and afterwards the warming
list. In either list it takes the place of the listener with its name.
-/

namespace ListenerManagerImpl

/-- Names are distinct, and nothing is warming before the workers are started. -/
structure Consistent (m : ListenerManagerImpl) : Prop where
  /-- No two active listeners have one name. -/
  nodup_active : (m.activeListeners.map (·.name)).Nodup
  /-- No two warming listeners have one name. -/
  nodup_warming : (m.warmingListeners.map (·.name)).Nodup
  /-- Before the workers are started no listener is warming. -/
  warming_eq_nil : m.workersStarted = false → m.warmingListeners = []
  /-- Objects are younger than `nextId`. -/
  id_lt : ∀ l ∈ m.activeListeners ++ m.warmingListeners, l.id < m.nextId
  /-- Every listener reuses its port, since the constructor does not read the configuration. -/
  reusePort : ∀ l ∈ m.activeListeners ++ m.warmingListeners, l.reusePort = true

/-- The ways a call can end, where `l` is the new listener. -/
inductive Outcome (m : ListenerManagerImpl) (l : ListenerImpl) :
    Except EnvoyException Bool × ListenerManagerImpl → Prop
  | threw (e : EnvoyException) : Outcome m l (.error e, { m with nextId := m.nextId + 1 })
  | warming (warmingListeners : List ListenerImpl) (hstarted : m.workersStarted = true)
      (hput : Put (·.name) l m.warmingListeners warmingListeners) :
      Outcome m l (.ok true, { m with warmingListeners, nextId := m.nextId + 1 })
  | active (activeListeners : List ListenerImpl) (hstarted : m.workersStarted = false)
      (hput : Put (·.name) l m.activeListeners activeListeners) :
      Outcome m l (.ok true, { m with activeListeners, nextId := m.nextId + 1 })

variable {m : ListenerManagerImpl}

/-- A call ends with an exception and the lists as they were, or the new listener has entered the
list that `workersStarted` tells. -/
theorem addOrUpdateListenerInternal_cases (hm : m.workersStarted = false → m.warmingListeners = [])
    (env : CallEnv) (versionInfo : Text) (addedViaApi : Bool) (name : Text) :
    ∃ l, GivenSockets (.construct m.nextId versionInfo name addedViaApi m.workersStarted) l ∧
      Outcome m l (m.addOrUpdateListenerInternal env versionInfo addedViaApi name) := by
  set new := ListenerImpl.construct m.nextId versionInfo name addedViaApi m.workersStarted
  have hname {l : ListenerImpl} (h : GivenSockets new l) : l.name = name := by
    obtain ⟨fs, rfl⟩ := h
    rfl
  have hthrew (e : EnvoyException) : ∃ l, GivenSockets new l ∧
      Outcome m l (.error e, { m with nextId := m.nextId + 1 }) := ⟨new, .refl new, .threw e⟩
  rw [addOrUpdateListenerInternal]
  dsimp only
  cases hwarming : getListenerByName m.warmingListeners name with
  | some it =>
    dsimp only
    cases hsetup : setupSocketFactoryForListener env new (m.warmingListeners.get it) with
    | error e => exact hthrew e
    | ok l =>
      have hl := givenSockets_setupSocketFactoryForListener hsetup
      -- a warming listener is replaced without a look at `workersStarted`
      have hstarted : m.workersStarted = true := by
        by_contra hnot
        have hnil := hm (Bool.eq_false_iff.2 hnot)
        have hpos : 0 < m.warmingListeners.length := Nat.zero_lt_of_lt it.isLt
        rw [hnil] at hpos
        exact Nat.not_lt_zero _ hpos
      refine ⟨l, hl, .warming _ hstarted (.replace it ?_)⟩
      exact (of_lastWhere_eq_some hwarming).trans (hname hl).symm
  | none =>
    have hnew {l : ListenerImpl} (h : GivenSockets new l) :
        ∀ y ∈ m.warmingListeners, y.name ≠ l.name := by
      rw [hname h]
      exact of_lastWhere_eq_none hwarming
    cases hactive : getListenerByName m.activeListeners name with
    | some it =>
      dsimp only
      cases hsetup : setupSocketFactoryForListener env new (m.activeListeners.get it) with
      | error e => exact hthrew e
      | ok l =>
        have hl := givenSockets_setupSocketFactoryForListener hsetup
        refine ⟨l, hl, ?_⟩
        dsimp only
        split_ifs with hstarted
        · exact .warming _ hstarted (.append (hnew hl))
        · refine .active _ (Bool.eq_false_iff.2 hstarted) (.replace it ?_)
          exact (of_lastWhere_eq_some hactive).trans (hname hl).symm
    | none =>
      dsimp only
      cases hsetup : setNewOrDrainingSocketFactory env new with
      | error e => exact hthrew e
      | ok l =>
        have hl := givenSockets_setNewOrDrainingSocketFactory hsetup
        refine ⟨l, hl, ?_⟩
        dsimp only
        split_ifs with hstarted
        · exact .warming _ hstarted (.append (hnew hl))
        · refine .active _ (Bool.eq_false_iff.2 hstarted) (.append ?_)
          rw [hname hl]
          exact of_lastWhere_eq_none hactive

/-- Once the workers are started, a call leaves the active listeners as they are. -/
theorem Outcome.activeListeners_eq {l : ListenerImpl}
    {r : Except EnvoyException Bool × ListenerManagerImpl} (h : Outcome m l r)
    (hstarted : m.workersStarted = true) : r.2.activeListeners = m.activeListeners := by
  cases h with
  | threw | warming => rfl
  | active activeListeners hnot => exact absurd (hnot.symm.trans hstarted) Bool.false_ne_true

/-! ### Runs -/

/-- A new manager has no listeners. -/
theorem Consistent.init : Consistent {} where
  nodup_active := List.nodup_nil
  nodup_warming := List.nodup_nil
  warming_eq_nil _ := rfl
  id_lt _ h := nomatch h
  reusePort _ h := nomatch h

/-- The new listener keeps the lists consistent, if it is a new object that reuses its port. -/
theorem Consistent.outcome (hm : m.Consistent) {l : ListenerImpl} (hid : l.id = m.nextId)
    (hreuse : l.reusePort = true) {r : Except EnvoyException Bool × ListenerManagerImpl}
    (h : Outcome m l r) : r.2.Consistent := by
  have hold : ∀ y ∈ m.activeListeners ++ m.warmingListeners, y.id < m.nextId + 1 :=
    fun y hy ↦ Nat.lt_succ_of_lt (hm.id_lt y hy)
  have hreuseOld := hm.reusePort
  have hput {P : ListenerImpl → Prop} (hl : P l) {before after : List ListenerImpl}
      (hput : Put (·.name) l before after) (h : ∀ y ∈ before, P y) : ∀ y ∈ after, P y := by
    intro y hy
    rcases hput.eq_or_mem hy with rfl | hy
    · exact hl
    · exact h y hy
  have hlt : l.id < m.nextId + 1 := by omega
  rw [List.forall_mem_append] at hold hreuseOld
  cases h with
  | threw e =>
    exact { hm with id_lt := List.forall_mem_append.2 hold }
  | warming warmingListeners hstarted h =>
    refine ⟨hm.nodup_active, h.nodup hm.nodup_warming, fun hnot ↦ ?_, ?_, ?_⟩
    · exact absurd (hnot.symm.trans hstarted) Bool.false_ne_true
    · exact List.forall_mem_append.2 ⟨hold.1, hput hlt h hold.2⟩
    · exact List.forall_mem_append.2 ⟨hreuseOld.1, hput hreuse h hreuseOld.2⟩
  | active activeListeners hstarted h =>
    refine ⟨h.nodup hm.nodup_active, hm.nodup_warming, hm.warming_eq_nil, ?_, ?_⟩
    · exact List.forall_mem_append.2 ⟨hput hlt h hold.1, hold.2⟩
    · exact List.forall_mem_append.2 ⟨hput hreuse h hreuseOld.1, hreuseOld.2⟩

/-- A call keeps the lists consistent. -/
theorem Consistent.step (hm : m.Consistent) (call : ManagerCall) : (m.step call).Consistent := by
  cases call with
  | addOrUpdateListenerInternal env versionInfo addedViaApi name =>
    obtain ⟨l, ⟨fs, hl⟩, h⟩ := addOrUpdateListenerInternal_cases hm.warming_eq_nil env versionInfo
      addedViaApi name
    exact hm.outcome (hl ▸ rfl) (hl ▸ rfl) h
  | startWorkers => exact { hm with warming_eq_nil := (nomatch ·) }

/-- The lists are consistent after any sequence of calls. -/
theorem consistent_after (calls : List ManagerCall) : (after calls).Consistent := by
  have hrun (calls : List ManagerCall) (m : ListenerManagerImpl) (hm : m.Consistent) :
      (calls.foldl ListenerManagerImpl.step m).Consistent := by
    induction calls generalizing m with
    | nil => exact hm
    | cons call calls ih => exact ih _ (hm.step call)
  exact hrun calls {} .init

/-- `l` has entered the list under its name. It is the only listener of that name, in the place of
the previous one if there was one, and every other listener is still where it was. -/
structure Entered (l : ListenerImpl) (before after : List ListenerImpl) : Prop where
  /-- The listener is put into the list by its name. -/
  put : Put (·.name) l before after
  /-- It is the only one with its name. -/
  only : after.filter (·.name = l.name) = [l]
  /-- Every other listener is where it was. -/
  others : ∀ (i : ℕ) (x : ListenerImpl), x.name ≠ l.name →
    (after[i]? = some x ↔ before[i]? = some x)

/-- Putting a listener into a list of distinct names is all of this. -/
theorem Entered.of_put {l : ListenerImpl} {before after : List ListenerImpl}
    (h : Put (·.name) l before after) (hnodup : (before.map (·.name)).Nodup) :
    Entered l before after where
  put := h
  only := h.filter_eq hnodup
  others _ _ hx := h.getElem?_eq_some_iff hx

/-- What is asked of a call in a state `m`. A call that returns has made one new object. -/
def CallCorrect (m : ListenerManagerImpl) (versionInfo name : Text) :
    Except EnvoyException Bool × ListenerManagerImpl → Prop
  | (.error _, m') =>
    m'.activeListeners = m.activeListeners ∧ m'.warmingListeners = m.warmingListeners
  | (.ok _, m') => ∃ l : ListenerImpl, l.name = name ∧ l.versionInfo = versionInfo ∧
      (∀ x ∈ m.activeListeners ++ m.warmingListeners, x.id ≠ l.id) ∧
      if m.workersStarted then
        m'.activeListeners = m.activeListeners ∧ Entered l m.warmingListeners m'.warmingListeners
      else m'.warmingListeners = m.warmingListeners ∧ Entered l m.activeListeners m'.activeListeners

/-- In consistent lists a call does what is asked of it, however it ends. -/
theorem Consistent.callCorrect (hm : m.Consistent) {l : ListenerImpl} (hid : l.id = m.nextId)
    {r : Except EnvoyException Bool × ListenerManagerImpl} (h : Outcome m l r) :
    CallCorrect m l.versionInfo l.name r := by
  have hfresh : ∀ x ∈ m.activeListeners ++ m.warmingListeners, x.id ≠ l.id :=
    fun x hx ↦ hid ▸ (hm.id_lt x hx).ne
  cases h with
  | threw e => exact ⟨rfl, rfl⟩
  | warming warmingListeners hstarted h =>
    refine ⟨l, rfl, rfl, hfresh, ?_⟩
    rw [if_pos hstarted]
    exact ⟨rfl, .of_put h hm.nodup_warming⟩
  | active activeListeners hstarted h =>
    refine ⟨l, rfl, rfl, hfresh, ?_⟩
    rw [if_neg (Bool.eq_false_iff.1 hstarted)]
    exact ⟨rfl, .of_put h hm.nodup_active⟩

/-- **A call returns** unless something outside of the manager throws. -/
theorem Consistent.returns (hm : m.Consistent) {env : CallEnv} (henv : env.Quiet)
    (versionInfo : Text)
    (addedViaApi : Bool) (name : Text) :
    (m.addOrUpdateListenerInternal env versionInfo addedViaApi name).1 = .ok true := by
  have hreuse := List.forall_mem_append.1 hm.reusePort
  set new := ListenerImpl.construct m.nextId versionInfo name addedViaApi m.workersStarted with hnew
  rw [addOrUpdateListenerInternal, ← hnew]
  dsimp only
  cases getListenerByName m.warmingListeners name with
  | some it =>
    obtain ⟨l, hl⟩ := henv.setupSocketFactoryForListener new rfl
      (hreuse.2 _ (List.get_mem m.warmingListeners it))
    simp only [hl]
  | none =>
    cases getListenerByName m.activeListeners name with
    | some it =>
      obtain ⟨l, hl⟩ := henv.setupSocketFactoryForListener new rfl
        (hreuse.1 _ (List.get_mem m.activeListeners it))
      simp only [hl]
      split_ifs <;> rfl
    | none =>
      obtain ⟨l, hl⟩ := henv.setNewOrDrainingSocketFactory new
      simp only [hl]
      split_ifs <;> rfl

/-- **The lists stay consistent** over every sequence of calls, and the next call either throws and
leaves them alone, or enters one new listener, which it does unless something outside throws. -/
theorem listener_lists_consistent (calls : List ManagerCall) :
    let m := after calls
    ((m.activeListeners.map (·.name)).Nodup ∧ (m.warmingListeners.map (·.name)).Nodup) ∧
      (m.workersStarted = false → m.warmingListeners = []) ∧
      (∀ call, m.workersStarted = true → (m.step call).activeListeners = m.activeListeners) ∧
      ∀ env versionInfo addedViaApi name,
        CallCorrect m versionInfo name
            (m.addOrUpdateListenerInternal env versionInfo addedViaApi name) ∧
          (env.Quiet →
            (m.addOrUpdateListenerInternal env versionInfo addedViaApi name).1 = .ok true) := by
  intro m
  have hm : m.Consistent := consistent_after calls
  have hcall (env : CallEnv) (versionInfo : Text) (addedViaApi : Bool) (name : Text) :
      CallCorrect m versionInfo name
        (m.addOrUpdateListenerInternal env versionInfo addedViaApi name) := by
    obtain ⟨l, ⟨fs, rfl⟩, h⟩ := addOrUpdateListenerInternal_cases hm.warming_eq_nil env versionInfo
      addedViaApi name
    exact hm.callCorrect rfl h
  refine ⟨⟨hm.nodup_active, hm.nodup_warming⟩, hm.warming_eq_nil, ?_,
    fun env versionInfo addedViaApi name ↦ ⟨hcall env versionInfo addedViaApi name,
      fun henv ↦ hm.returns henv versionInfo addedViaApi name⟩⟩
  intro call hstarted
  cases call with
  | startWorkers => rfl
  | addOrUpdateListenerInternal env versionInfo addedViaApi name =>
    obtain ⟨l, -, h⟩ := addOrUpdateListenerInternal_cases hm.warming_eq_nil env versionInfo
      addedViaApi name
    exact h.activeListeners_eq hstarted

end ListenerManagerImpl

end TcpServer.Server
