import TcpServer.Server.ConnectionHandler

/-!
# Finding a listener

A connection handler is asked for its listeners by tag and by address. `addListener` writes the two
kinds of map differently: the maps by address take the new listener in the place of an old one, and
the map by tag keeps the old one. What a lookup finds is therefore read off the history of the
additions in opposite directions, the first of its tag (`creations … find?`) and the latest of its
address (`latest`).

A variant that does not hold the listener that is asked for makes `value()` throw, and a null
pointer is dereferenced where the address is not an internal one. `lookups_correct` says that
neither happens to a lookup of an internal address, whatever has been added.

The identities of the listeners are given out by a counter, so two listeners that were made are
never confused, and a lookup can be said to find the very listener that one of the calls has made.
-/

namespace TcpServer.Server

open Network Keyed

namespace PerAddressActiveListenerDetails

/-- The listener, if the variant holds one of the kind. -/
def ofKind (kind : TypedListener) (d : PerAddressActiveListenerDetails) : Option ℕ :=
  if d.typedListener = kind then some d.listener else none

/-- `tcpListener()`, without the cast. -/
def tcpListener (d : PerAddressActiveListenerDetails) : Option ℕ := d.ofKind .activeTcpListener

/-- `internalListener()`, without the cast. -/
def internalListener (d : PerAddressActiveListenerDetails) : Option ℕ := d.ofKind .internalListener

/-- An internal listener under an `addressId`. -/
def isInternal (addressId : Text) (d : PerAddressActiveListenerDetails) : Bool :=
  decide (d.typedListener = .internalListener) &&
    match d.address with
    | .envoyInternal i => decide (i.addressId = addressId)
    | _ => false

end PerAddressActiveListenerDetails

namespace ConnectionHandlerImpl

/-- `findActiveListenerByTag`. -/
def findActiveListenerByTag (handler : ConnectionHandlerImpl) (listenerTag : UInt64) :
    Option (List PerAddressActiveListenerDetails) :=
  handler.listenerMapByTag listenerTag

/-- `findPerAddressActiveListenerDetails`: the first of the listeners whose address is equal. -/
def findPerAddressActiveListenerDetails
    (activeListenerDetails : Option (List PerAddressActiveListenerDetails)) (address : Instance) :
    Option PerAddressActiveListenerDetails :=
  activeListenerDetails.bind (·.find? (·.address.eq address))

/-- `findByAddress`. There is no result where a null pointer is dereferenced or `value()` throws. -/
def findByAddress (handler : ConnectionHandlerImpl) (address : Instance) : Option (Option ℕ) :=
  match address with
  | .envoyInternal i =>
    match handler.internalListenerMapByAddress i.addressId with
    | some details => details.internalListener.map some
    | none => some none
  | _ => none

/-- `addListener`, one call after the other. -/
def addAll (ops : List (Option UInt64 × ListenerConfig)) (handler : ConnectionHandlerImpl) :
    Option ConnectionHandlerImpl :=
  ops.foldlM (fun handler op ↦ handler.addListener op.1 op.2) handler

/-- The active listeners that the calls make, by tag, where the next one is listener `n`. -/
def creationsFrom : ℕ → List (Option UInt64 × ListenerConfig) →
    List (UInt64 × List PerAddressActiveListenerDetails)
  | _, [] => []
  | n, (some _, _) :: ops => creationsFrom n ops
  | n, (none, config) :: ops =>
    let details := (activeListenerDetails n config).getD []
    (config.listenerTag, details) :: creationsFrom (n + details.length) ops

/-- The active listeners that the calls make, from the first one on. -/
def creations (ops : List (Option UInt64 × ListenerConfig)) :
    List (UInt64 × List PerAddressActiveListenerDetails) := creationsFrom 0 ops

/-- The listeners that have been made, in order. -/
def madeOf (created : List (UInt64 × List PerAddressActiveListenerDetails)) :
    List PerAddressActiveListenerDetails := created.flatMap (·.2)

/-- The maps by address hold what has been made. -/
structure ByAddress (handler : ConnectionHandlerImpl)
    (made : List PerAddressActiveListenerDetails) :
    Prop where
  /-- Under an address of internal listeners there is the latest one with it. -/
  internal : ∀ addressId, handler.internalListenerMapByAddress addressId =
    latest (·.isInternal addressId) made
  /-- What is found among the TCP listeners is a TCP listener that was made. -/
  tcp : ∀ key d, handler.tcpListenerMapByAddress key = some d →
    d.typedListener = .activeTcpListener ∧ d ∈ made

/-- All maps, and the identities. -/
structure Finds (handler : ConnectionHandlerImpl)
    (created : List (UInt64 × List PerAddressActiveListenerDetails)) : Prop where
  /-- Under a tag there are the listeners of the first configuration with it. -/
  byTag : ∀ tag, handler.listenerMapByTag tag = (created.find? (·.1 = tag)).map (·.2)
  /-- The maps by address hold what has been made. -/
  byAddress : handler.ByAddress (madeOf created)
  /-- The listeners are numbered in the order in which they were made. -/
  identities : (madeOf created).map (·.listener) = List.range handler.nextListener

/-- Nothing has been made, and nothing is found. -/
theorem finds_init : ({} : ConnectionHandlerImpl).Finds [] where
  byTag _ := rfl
  byAddress := ⟨fun _ ↦ rfl, fun _ _ h ↦ nomatch h⟩
  identities := rfl

/-- What is entered for a TCP listener is the listener. -/
theorem of_insertTcpListener {m m' : Text → Option PerAddressActiveListenerDetails}
    {d e : PerAddressActiveListenerDetails} (h : insertTcpListener m d = some m') {key : Text}
    (he : m' key = some e) : e = d ∨ m key = some e := by
  have hinsert {m : Text → Option PerAddressActiveListenerDetails} {k : Text}
      (h : insertOrAssign m k d key = some e) : e = d ∨ m key = some e := by
    rw [insertOrAssign, Function.update_apply] at h
    split_ifs at h
    · exact .inl (Option.some.inj h).symm
    · exact .inr h
  have htwice {k k' : Text} (h : insertOrAssign (insertOrAssign m k d) k' d key = some e) :
      e = d ∨ m key = some e := by
    rcases hinsert h with heq | hold
    · exact .inl heq
    · exact hinsert hold
  rw [insertTcpListener] at h
  split at h
  · split_ifs at h with hv6only hany
    · exact hinsert (Option.some.inj h ▸ he)
    · dsimp only at h
      split at h
      · exact htwice (Option.some.inj h ▸ he)
      · split_ifs at h
        · exact htwice (Option.some.inj h ▸ he)
        · exact hinsert (Option.some.inj h ▸ he)
    · split at h
      · cases h
      · exact htwice (Option.some.inj h ▸ he)
  · exact hinsert (Option.some.inj h ▸ he)

/-- The entries of one listener. -/
theorem ByAddress.insertDetails {handler handler' : ConnectionHandlerImpl}
    {made : List PerAddressActiveListenerDetails} {d : PerAddressActiveListenerDetails}
    (h : handler.ByAddress made) (hd : handler.insertDetails d = some handler') :
    handler'.ByAddress (made ++ [d]) ∧ handler'.listenerMapByTag = handler.listenerMapByTag ∧
      handler'.nextListener = handler.nextListener := by
  have hnot (hkind : d.typedListener ≠ .internalListener) (addressId : Text) :
      latest (·.isInternal addressId) (made ++ [d]) = latest (·.isInternal addressId) made := by
    rw [latest_append_singleton, if_neg]
    simp [PerAddressActiveListenerDetails.isInternal, hkind]
  have hmem {e : PerAddressActiveListenerDetails} (he : e ∈ made) : e ∈ made ++ [d] :=
    List.mem_append_left _ he
  rw [ConnectionHandlerImpl.insertDetails] at hd
  split at hd
  · rename_i htcp
    split at hd
    · cases hd
    · rename_i m hm
      obtain rfl := Option.some.inj hd
      refine ⟨⟨fun addressId ↦ ?_, fun key e he ↦ ?_⟩, rfl, rfl⟩
      · rw [hnot (by simp [htcp])]
        exact h.internal addressId
      · rcases of_insertTcpListener hm he with rfl | hold
        · exact ⟨htcp, List.mem_append_right _ (List.mem_singleton_self e)⟩
        · exact (h.tcp key e hold).imp_right hmem
  · rename_i hinternal
    split at hd
    · rename_i i haddress
      obtain rfl := Option.some.inj hd
      refine ⟨⟨fun addressId ↦ ?_, fun key e he ↦ (h.tcp key e he).imp_right hmem⟩, rfl, rfl⟩
      have hd : d.isInternal addressId = decide (i.addressId = addressId) := by
        rw [PerAddressActiveListenerDetails.isInternal, hinternal, haddress]
        exact Bool.true_and _
      show insertOrAssign handler.internalListenerMapByAddress i.addressId d addressId = _
      rw [latest_append_singleton, insertOrAssign, Function.update_apply, h.internal, hd]
      exact if_congr (eq_comm.trans decide_eq_true_iff.symm) rfl rfl
    · cases hd
  · rename_i hudp
    obtain rfl := Option.some.inj hd
    refine ⟨⟨fun addressId ↦ ?_, fun key e he ↦ (h.tcp key e he).imp_right hmem⟩, rfl, rfl⟩
    rw [hnot (by simp [hudp])]
    exact h.internal addressId

/-- The entries of the listeners of a configuration. -/
theorem ByAddress.foldlM {handler handler' : ConnectionHandlerImpl}
    {made details : List PerAddressActiveListenerDetails} (h : handler.ByAddress made)
    (hfold : details.foldlM ConnectionHandlerImpl.insertDetails handler = some handler') :
    handler'.ByAddress (made ++ details) ∧ handler'.listenerMapByTag = handler.listenerMapByTag ∧
      handler'.nextListener = handler.nextListener := by
  induction details generalizing handler made with
  | nil =>
    obtain rfl := Option.some.inj hfold
    exact ⟨by rwa [List.append_nil], rfl, rfl⟩
  | cons d details ih =>
    rw [List.foldlM_cons] at hfold
    obtain ⟨t, ht, hrest⟩ := Option.bind_eq_some_iff.1 hfold
    obtain ⟨hbyAddress, htag, hnext⟩ := h.insertDetails ht
    obtain ⟨hlast, htag', hnext'⟩ := ih hbyAddress hrest
    rw [List.append_assoc] at hlast
    exact ⟨hlast, htag'.trans htag, hnext'.trans hnext⟩

/-- The listeners of a configuration have consecutive numbers. -/
theorem map_listener_addActiveListeners (n : ℕ) (t : TypedListener) (as : List Instance) :
    (addActiveListeners n t as).map (·.listener) = List.range' n as.length := by
  refine List.ext_getElem ?_ fun i h₁ h₂ ↦ ?_
  · rw [List.length_map, length_addActiveListeners, List.length_range']
  · simp [addActiveListeners]

theorem map_listener_activeListenerDetails {n : ℕ} {config : ListenerConfig}
    {details : List PerAddressActiveListenerDetails}
    (h : activeListenerDetails n config = some details) :
    details.map (·.listener) = List.range' n details.length := by
  have hadd {t : TypedListener} {as : List Instance} (h : addActiveListeners n t as = details) :
      details.map (·.listener) = List.range' n details.length := by
    rw [← h, map_listener_addActiveListeners, length_addActiveListeners]
  rw [activeListenerDetails] at h
  split at h
  · cases h
  · dsimp only at h
    split_ifs at h
    · exact hadd (Option.some.inj h)
    · exact hadd (Option.some.inj h)
    · exact hadd (Option.some.inj h)

/-- One call without override. -/
theorem Finds.addListener {handler handler' : ConnectionHandlerImpl}
    {created : List (UInt64 × List PerAddressActiveListenerDetails)} {config : ListenerConfig}
    (h : handler.Finds created) (hadd : handler.addListener none config = some handler') :
    ∃ details, activeListenerDetails handler.nextListener config = some details ∧
      handler'.Finds (created ++ [(config.listenerTag, details)]) ∧
      handler'.nextListener = handler.nextListener + details.length := by
  obtain ⟨details, hdetails, hadd⟩ := Option.bind_eq_some_iff.1 hadd
  obtain ⟨t, ht, hadd⟩ := Option.bind_eq_some_iff.1 hadd
  have hallocated : ByAddress { handler with nextListener := handler.nextListener + details.length }
      (madeOf created) := ⟨h.byAddress.internal, h.byAddress.tcp⟩
  obtain ⟨hbyAddress, htag, hnext⟩ := hallocated.foldlM ht
  dsimp only at htag hnext
  have hmade : madeOf (created ++ [(config.listenerTag, details)]) = madeOf created ++ details := by
    rw [madeOf, List.flatMap_append, List.flatMap_singleton]
    rfl
  have hidentities : (madeOf (created ++ [(config.listenerTag, details)])).map (·.listener) =
      List.range (handler.nextListener + details.length) := by
    rw [hmade, List.map_append, h.identities, map_listener_activeListenerDetails hdetails,
      List.range_eq_range', List.range_eq_range', ← List.range'_append_1, Nat.zero_add]
  refine ⟨details, hdetails, ?_, ?_⟩
  · split_ifs at hadd with hthere
    · -- the tag is taken
      obtain rfl := Option.some.inj hadd
      refine ⟨fun tag ↦ ?_, hmade ▸ hbyAddress, hnext ▸ hidentities⟩
      rw [htag, h.byTag, List.find?_append]
      cases hfind : created.find? (·.1 = tag) with
      | some entry => rfl
      | none =>
        rw [htag, h.byTag] at hthere
        have hne : config.listenerTag ≠ tag := fun heq ↦ by simp [heq, hfind] at hthere
        simp [hne]
    · obtain rfl := Option.some.inj hadd
      refine ⟨fun tag ↦ ?_, hmade ▸ ⟨hbyAddress.internal, hbyAddress.tcp⟩, hnext ▸ hidentities⟩
      rw [htag, h.byTag, Bool.not_eq_true, Option.isSome_eq_false_iff, Option.isNone_iff_eq_none,
        Option.map_eq_none_iff] at hthere
      show insertOrAssign t.listenerMapByTag config.listenerTag details tag = _
      rw [insertOrAssign, Function.update_apply, htag, h.byTag, List.find?_append]
      split_ifs with heq
      · rw [heq, hthere]
        simp
      · simp [Ne.symm heq]
  · split_ifs at hadd
    · exact Option.some.inj hadd ▸ hnext
    · exact Option.some.inj hadd ▸ hnext

/-- Calls one after the other. -/
theorem Finds.addAll {ops : List (Option UInt64 × ListenerConfig)}
    {handler handler' : ConnectionHandlerImpl}
    {created : List (UInt64 × List PerAddressActiveListenerDetails)} (h : handler.Finds created)
    (hadd : handler.addAll ops = some handler') :
    handler'.Finds (created ++ creationsFrom handler.nextListener ops) := by
  induction ops generalizing handler created with
  | nil =>
    obtain rfl := Option.some.inj hadd
    rwa [creationsFrom, List.append_nil]
  | cons op ops ih =>
    obtain ⟨t, ht, hrest⟩ := Option.bind_eq_some_iff.1 hadd
    match op, ht with
    | (some tag, config), ht =>
      obtain rfl := Option.some.inj (Option.ite_none_right_eq_some.1 ht).2
      exact ih h hrest
    | (none, config), ht =>
      obtain ⟨details, hdetails, hfinds, hnext⟩ := h.addListener ht
      have hlast := ih hfinds hrest
      rw [List.append_assoc, hnext] at hlast
      rw [creationsFrom, hdetails]
      exact hlast

/-- **What a lookup finds.** After any calls of `addListener`, with and without override, of TCP,
UDP and internal listeners: under a tag there are the listeners of the first configuration that was
added with it, and of these the first whose address is equal to the one asked for; the lookup of an
internal address never throws and finds the latest internal listener that has it; every entry of the
TCP map is a TCP listener that has been made; and no two listeners are the same. -/
theorem lookups_correct {ops : List (Option UInt64 × ListenerConfig)}
    {handler : ConnectionHandlerImpl}
    (h : ConnectionHandlerImpl.addAll ops {} = some handler) :
    (∀ tag, handler.findActiveListenerByTag tag = ((creations ops).find? (·.1 = tag)).map (·.2)) ∧
      (∀ tag address, findPerAddressActiveListenerDetails (handler.findActiveListenerByTag tag)
        address =
        ((creations ops).find? (·.1 = tag)).bind (·.2.find? (·.address.eq address))) ∧
      (∀ i, handler.findByAddress (.envoyInternal i) =
        some ((latest (·.isInternal i.addressId) (madeOf (creations ops))).map (·.listener))) ∧
      (∀ key d, handler.tcpListenerMapByAddress key = some d →
        d.tcpListener = some d.listener ∧ d ∈ madeOf (creations ops)) ∧
      ((madeOf (creations ops)).map (·.listener)).Nodup := by
  have hfinds : handler.Finds (creations ops) := finds_init.addAll h
  refine ⟨hfinds.byTag, fun tag address ↦ ?_, fun i ↦ ?_, fun key d hd ↦ ?_, ?_⟩
  · rw [findActiveListenerByTag, hfinds.byTag, findPerAddressActiveListenerDetails,
      Option.bind_map]
    rfl
  · rw [findByAddress, hfinds.byAddress.internal]
    cases hlatest : latest (·.isInternal i.addressId) (madeOf (creations ops)) with
    | none => rfl
    | some d =>
      have hd := (of_latest_eq_some hlatest).2
      rw [PerAddressActiveListenerDetails.isInternal, Bool.and_eq_true] at hd
      have hkind : d.typedListener = .internalListener := of_decide_eq_true hd.1
      simp [PerAddressActiveListenerDetails.internalListener,
        PerAddressActiveListenerDetails.ofKind, hkind]
  · obtain ⟨htcp, hmem⟩ := hfinds.byAddress.tcp key d hd
    exact ⟨if_pos htcp, hmem⟩
  · rw [hfinds.identities]
    exact List.nodup_range

/-- An internal listener. -/
def internalConfig (listenerTag : UInt64) (addressId : Text) : ListenerConfig where
  listenerTag := listenerTag
  internalListenerConfig := true
  listenSocketFactories := [{
    localAddress := .envoyInternal (.ofIds addressId [])
    socketType := .stream
    listenerName := "internal".toList
    bindType := .reusePort
    mptcpEnabled := false }]

/-- Two configurations with one tag, and then two internal listeners with one address. -/
def sameTag : List (Option UInt64 × ListenerConfig) :=
  [(none, portEighty (.ipv4 (.ofPort 80))), (none, portEighty (.ipv4 (.ofPort 81))),
    (none, internalConfig 8 "a".toList), (some 8, internalConfig 8 "a".toList),
    (none, internalConfig 9 "a".toList)]

theorem lookups_correct_sameTag : ∃ handler, ConnectionHandlerImpl.addAll sameTag {} =
    some handler ∧
    (handler.findActiveListenerByTag 7).map (·.map (·.listener)) = some [0] ∧
    handler.findByAddress (.envoyInternal (.ofIds "a".toList [])) = some (some 3) := by
  obtain ⟨handler, hadd⟩ : ∃ handler, ConnectionHandlerImpl.addAll sameTag {} = some handler :=
    ⟨_, rfl⟩
  obtain ⟨hbyTag, -, hinternal, -⟩ := lookups_correct hadd
  refine ⟨handler, hadd, ?_, ?_⟩
  · rw [hbyTag]
    rfl
  · rw [hinternal]
    rfl

end ConnectionHandlerImpl

end TcpServer.Server
