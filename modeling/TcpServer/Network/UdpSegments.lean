import TcpServer.Network.UdpRead

/-!
# Datagrams out of one buffer

With GRO, `readFromSocket` cuts what was received into buffers of `gso_size` bytes. The loop moves
the bytes with `OwnedImpl::move`, and what it leaves in the source is what it has not moved yet. The
processor runs in every iteration, so the source must not depend on the memory that it can write to:
it was received into memory of its own, and it has no fragments (`OnHeap`).

Of `recvmsg` it is supposed that it writes no more than the slice it is given and that what it
returns is the number of bytes it wrote (`IoHandle.Receives`). The processor is arbitrary: between
two packets it may change the memory of all fragments. The chunks come out right all the same, their
number is the length divided by the segment size and rounded up, and the record of the packets is
the record of the calls of the processor.
-/

namespace TcpServer

open Buffer

variable {σ α ε : Type*}

/-! ### Buffers without fragments

Memory that a buffer has reserved for itself is written to by nobody else. What is in a slice over a
fragment may change while the processor runs, so the loop is shown to keep clear of such slices.
-/

/-- A slice that holds no more than can be reserved has room for any part of it. -/
theorem Buffer.moveFits_of_dataSizes_le {l : List (Slice α)} (h : dataSizes l ≤ maxSliceSize)
    (room n : ℕ) : MoveFits room l n := by
  induction l generalizing room n with
  | nil => trivial
  | cons s l ih =>
    rw [dataSizes_cons] at h
    have hl : dataSizes l ≤ maxSliceSize := by omega
    show if n < s.dataSize then n ≤ room + maxSliceSize
      else if s.dataSize = 0 then MoveFits room l n
      else MoveFits (roomBehind room s) l (n - s.dataSize)
    split_ifs with hpart hempty
    · omega
    · exact ih hl room n
    · exact ih hl _ _

namespace Buffer.OwnedImpl

/-- The buffer has no slice over the memory of a fragment. -/
def OnHeap (b : OwnedImpl α) : Prop := ∀ s ∈ b.slices.toList, ∀ f, s.base ≠ some (.fragment f)

variable {b b' other other' : OwnedImpl α} {w w' : World α} {c : List α}

/-- Such a buffer keeps its bytes, whatever happens to the memory of others. -/
theorem Holds.of_onHeap (h : b.Holds w c) (hheap : b.OnHeap) (w' : World α) : b.Holds w' c := by
  have hcontent : contentOf w' b.slices.toList = contentOf w b.slices.toList :=
    contentOf_congr_of_base fun s hs f hf ↦ absurd hf (hheap s hs f)
  exact ⟨h.wf, hcontent.trans h.content, h.length⟩

/-- Nothing is nothing in any memory. -/
theorem Holds.of_nil (h : b.Holds w []) (w' : World α) : b.Holds w' [] := by
  refine ⟨h.wf, ?_, h.length⟩
  rw [← List.length_eq_zero_iff, length_contentOf w' h.wf, h.dataSizes_eq]
  rfl

/-- Slices on the heap come one by one. -/
theorem OnHeap.of_cons {s : Slice α} {l : List (Slice α)} (h : b.OnHeap)
    (hl : b.slices.toList = s :: l) : (∀ f, s.base ≠ some (.fragment f)) ∧
      ∀ t ∈ l, ∀ f, t.base ≠ some (.fragment f) := by
  rw [OnHeap, hl, List.forall_mem_cons] at h
  exact h

/-- What is left of the source of a move is slices of the source, or the end of one. -/
theorem OnHeap.moveLength {n : ℕ} (hb : b.WF) (ho : other.WF) (hheap : other.OnHeap)
    (h : b.moveLength other n w = some (b', other', w')) : other'.OnHeap := by
  obtain ⟨-, hheap', -⟩ := moveLength_induction (P := fun _ _ other' _ ↦ other'.OnHeap)
    (fun s n b other w other' w' _ _ _ hdrops hheap ↦ (hheap.of_cons hdrops.slices).2)
    (fun s n b other w b' other' w' _ ho _ hmoves hheap ↦ by
      obtain ⟨l, hl, hl'⟩ := hmoves.otherSlices
      obtain ⟨hs, hrest⟩ := hheap.of_cons hl
      have hmem : s ∈ other.slices.toList := by
        rw [hl]
        exact List.mem_cons_self
      have hbase : (s.drain n).base = s.base := ((ho s hmem).drain_spec hmoves.lt).2.1.base
      rw [OnHeap, hl', List.forall_mem_cons, hbase]
      exact ⟨hs, hrest⟩)
    (fun s n b other w b' other' w' _ _ _ _ hmoves hheap ↦ (hheap.of_cons hmoves.otherSlices).2)
    hb ho h hheap
  exact hheap'

/-- The first `n` bytes are moved to a new buffer. -/
theorem Holds.segment (h : b.Holds w c) (hheap : b.OnHeap) (hc : c.length ≤ maxSliceSize) (n : ℕ) :
    ∃ sub b' w', OwnedImpl.moveLength {} b n w = some (sub, b', w') ∧ sub.Holds w' (c.take n) ∧
      b'.Holds w' (c.drop n) ∧ b'.OnHeap := by
  have hfits : MoveFits ({} : OwnedImpl α).room b.slices.toList n :=
    moveFits_of_dataSizes_le (h.dataSizes_eq ▸ hc) _ n
  obtain ⟨sub, b', w', hmove, hsub, hrest⟩ := (holds_empty w).moveLength h hfits
  rw [List.nil_append] at hsub
  exact ⟨sub, b', w', hmove, hsub, hrest, hheap.moveLength (holds_empty w).wf h.wf hmove⟩

end Buffer.OwnedImpl

namespace Network

variable {handle : IoHandle σ α ε} {localAddress : Instance} {processor : UdpPacketProcessor σ α}
  {info : RecvMsgPerPacketInfo} {c : List α}

/-! ### The loop

One iteration moves a chunk into a new buffer and hands it over. The source keeps the bytes behind
it, in slices of its own memory, so the iteration can be repeated.
-/

/-- The packet says how many bytes it has, and where they come from. -/
structure HandedPacket.Carries (info : RecvMsgPerPacketInfo) (p : HandedPacket α) : Prop where
  /-- The number of bytes that the packet reports is the length of its buffer. -/
  bytesRead : p.bytesRead = p.buffer.length
  /-- The length of the buffer is the number of bytes in it. -/
  length : p.buffer.length.toNat = p.bytes.length
  /-- The sender is the one that `recvmsg` reported. -/
  peerAddress : p.peerAddress = info.peerAddress
  /-- The receiver is the one that `recvmsg` reported. -/
  localAddress : p.localAddress = info.localAddress

/-- A loop over an empty buffer does nothing. -/
theorem segmentLoop_empty {buffer : OwnedImpl α} {w : World α} (h : buffer.Holds w [])
    (gsoSize : UInt64) (receiveTime : MonotonicTime) (fuel : ℕ) (env : σ) :
    segmentLoop processor info gsoSize receiveTime fuel buffer env w =
      some ([], buffer, env, w) := by
  cases fuel <;> exact if_pos h.length

/-- One iteration hands over the first chunk, and what is left of the buffer is the rest, also after
the processor has run. -/
theorem exists_segmentLoop_succ (processor : UdpPacketProcessor σ α) (info : RecvMsgPerPacketInfo)
    (gsoSize : UInt64) (receiveTime : MonotonicTime) {buffer : OwnedImpl α} {w : World α}
    (h : buffer.Holds w c) (hheap : buffer.OnHeap) (hc : c.length ≤ maxSliceSize) (hne : c ≠ [])
    (env : σ) :
    ∃ (packet : HandedPacket α) (rest : OwnedImpl α) (env' : σ) (w' : World α),
      (∀ fuel, segmentLoop processor info gsoSize receiveTime (fuel + 1) buffer env w =
        (segmentLoop processor info gsoSize receiveTime fuel rest env' w').map
          fun (handed, state) ↦ (packet :: handed, state)) ∧
      packet.bytes = c.take gsoSize.toNat ∧ packet.Carries info ∧
      rest.Holds w' (c.drop gsoSize.toNat) ∧ rest.OnHeap := by
  have hlt : c.length < 2 ^ 64 := by
    rw [maxSliceSize] at hc
    omega
  have hlength : buffer.length.toNat = c.length := h.toNat_length hlt
  have hempty : ¬ buffer.length = 0 := by
    rw [← UInt64.toNat_inj, hlength, UInt64.toNat_zero, List.length_eq_zero_iff]
    exact hne
  have hcopy : (min buffer.length gsoSize).toNat = min c.length gsoSize.toNat := by
    rw [toNat_min_uint64, hlength]
  obtain ⟨sub, rest, w₁, hmove, hsub, hrest, hheap'⟩ :=
    h.segment hheap hc (min c.length gsoSize.toNat)
  have htake : c.take (min c.length gsoSize.toNat) = c.take gsoSize.toNat := by
    rw [List.take_eq_take_iff]
    omega
  have hdrop : c.drop (min c.length gsoSize.toNat) = c.drop gsoSize.toNat := by
    rw [List.drop_eq_drop_iff]
    omega
  rw [htake] at hsub
  rw [hdrop] at hrest
  have hlen : (c.take gsoSize.toNat).length = min c.length gsoSize.toNat := by
    rw [List.length_take, Nat.min_comm]
  have hsublength : sub.length.toNat = min c.length gsoSize.toNat := by
    rw [hsub.toNat_length (hlen.trans_lt ((Nat.min_le_left _ _).trans_lt hlt)), hlen]
  let packet : HandedPacket α :=
    { bytesRead := min buffer.length gsoSize, buffer := sub, peerAddress := info.peerAddress
      localAddress := info.localAddress, receiveTime, world := w₁ }
  let state := processor.processPacket info.localAddress info.peerAddress sub receiveTime env w₁
  have hbytes : packet.bytes = c.take gsoSize.toNat := hsub.toString_eq
  refine ⟨packet, rest, state.1, state.2, fun fuel ↦ ?_, hbytes, ⟨?_, ?_, rfl, rfl⟩,
    hrest.of_onHeap hheap' state.2, hheap'⟩
  · rw [segmentLoop, if_neg hempty]
    dsimp only
    rw [hcopy, hmove, Option.bind_some]
    rfl
  · show min buffer.length gsoSize = sub.length
    rw [← UInt64.toNat_inj, hcopy, hsublength]
  · show sub.length.toNat = packet.bytes.length
    rw [hbytes, hsublength, hlen]

/-- The loop cuts what the buffer holds into chunks, and leaves nothing. -/
theorem exists_segmentLoop (processor : UdpPacketProcessor σ α) (info : RecvMsgPerPacketInfo)
    {gsoSize : UInt64} (hgso : gsoSize ≠ 0) (receiveTime : MonotonicTime) {fuel : ℕ}
    {buffer : OwnedImpl α} {w : World α} (h : buffer.Holds w c) (hheap : buffer.OnHeap)
    (hc : c.length ≤ maxSliceSize) (hfuel : c.length ≤ fuel) (env : σ) :
    ∃ handed buffer' env' w',
      segmentLoop processor info gsoSize receiveTime fuel buffer env w =
        some (handed, buffer', env', w') ∧
      InChunks gsoSize.toNat c (handed.map HandedPacket.bytes) ∧ buffer'.Holds w' [] ∧
        ∀ p ∈ handed, p.Carries info := by
  have hpos : 0 < gsoSize.toNat := toNat_pos_uint64 hgso
  induction fuel generalizing c buffer env w with
  | zero =>
    obtain rfl : c = [] := List.length_eq_zero_iff.1 (Nat.le_zero.1 hfuel)
    exact ⟨[], buffer, env, w, segmentLoop_empty h .., .nil, h, fun p ↦ (absurd · List.not_mem_nil)⟩
  | succ fuel ih =>
    obtain rfl | hne := eq_or_ne c []
    · exact ⟨[], buffer, env, w, segmentLoop_empty h .., .nil, h,
        fun p ↦ (absurd · List.not_mem_nil)⟩
    · obtain ⟨packet, rest, env₁, w₁, hstep, hbytes, hpacket, hrest, hheap'⟩ :=
        exists_segmentLoop_succ processor info gsoSize receiveTime h hheap hc hne env
      have hshorter : (c.drop gsoSize.toNat).length ≤ c.length - 1 := by
        rw [List.length_drop]
        omega
      obtain ⟨handed, buffer', env', w', hloop, hchunks, hend, hcarries⟩ :=
        ih hrest hheap' (by omega) (by omega) env₁
      refine ⟨packet :: handed, buffer', env', w', ?_, ?_, hend, ?_⟩
      · rw [hstep, hloop]
        rfl
      · rw [List.map_cons, hbytes]
        exact .cons hne hchunks
      · exact List.forall_mem_cons.2 ⟨hpacket, hcarries⟩

/-! ### What was received

A reservation for an empty buffer is a storage of its own, so what is committed after the message
was written to it is on the heap, and it starts with the bytes of the message.
-/

/-- A reservation of an empty buffer is new memory of its own. -/
theorem reserveSingleSlice_empty {n : ℕ} (hn : n ≠ 0) (separateSlice : Bool) (w : World α) :
    OwnedImpl.reserveSingleSlice {} n separateSlice w =
      ({ slice := ⟨some (.storage w.next, 0), n⟩
         sliceOwner := some (.single ⟨some (w.allocate (sliceSize n)).1, sliceSize n⟩) },
        {}, (w.allocate (sliceSize n)).2) := by
  have hroom : ¬ 0 ≥ n := by omega
  rw [OwnedImpl.reserveSingleSlice, if_neg hn]
  show (if (if separateSlice = true ∨ true = true then 0 else _) ≥ n then _ else _) = _
  rw [if_pos (Or.inr rfl), if_neg hroom]
  rfl

/-- An empty buffer has no slices at all. -/
theorem onHeap_empty : ({} : OwnedImpl α).OnHeap := by
  intro s hs
  have hnil : ({} : OwnedImpl α).slices.toList = [] := SliceDeque.toList_empty
  rw [hnil] at hs
  exact absurd hs List.not_mem_nil

/-- A slice takes over the first bytes of a storage. -/
theorem exists_commit_storage {storage : Storage α} {n len : ℕ} (hle : len ≤ n)
    (hfits : len ≤ storage.size) (w : World α) :
    ∃ b w', OwnedImpl.commit {} len [⟨some (.storage storage.id, 0), n⟩]
        (.single ⟨some storage, storage.size⟩) w = some (b, w') ∧
      b.Holds w' (Memory.read storage.mem 0 len) ∧ b.OnHeap := by
  by_cases hlen : len = 0
  · subst hlen
    exact ⟨{}, w, rfl, OwnedImpl.holds_empty w, onHeap_empty⟩
  let s : Slice α := (Slice.ofStorage storage storage.size len none w).1
  let w' : World α := (Slice.ofStorage storage storage.size len none w).2
  let b : OwnedImpl α :=
    { slices := (SliceDeque.empty.emplaceBack s w').1, length := 0 + .ofNat len }
  have hmin : min n len = len := Nat.min_eq_right hle
  have hslices : b.slices.toList = [s] := SliceDeque.toList_emplaceBack _ s w'
  have hs : s.WF :=
    (evolves_ofStorage storage rfl hfits none w).wf (fun _ h ↦ absurd h (Multiset.notMem_zero _)) s
      (by simp [slicesOf, s])
  refine ⟨b, (SliceDeque.empty.emplaceBack s w').2, ?_, ⟨?_, ?_, ?_⟩, ?_⟩
  · rw [OwnedImpl.commit, if_neg hlen]
    show (OwnedImpl.commitLoop [_] [_] len {} w).map _ = _
    rw [OwnedImpl.commitLoop, if_neg hlen]
    dsimp only
    rw [hmin, if_neg (Nat.not_lt.2 hfits)]
    rfl
  · intro t ht
    rw [hslices, List.mem_singleton] at ht
    exact ht ▸ hs
  · rw [hslices, contentOf_cons, contentOf_nil, List.append_nil]
    rfl
  · show 0 + UInt64.ofNat len = _
    rw [UInt64.zero_add, Memory.length_read]
  · intro t ht f
    rw [hslices, List.mem_singleton] at ht
    subst ht
    rintro ⟨⟩

/-- A reservation of `n` bytes for an empty buffer, to which `bytes` have been written. A commit
gives the buffer what was written, as far as it goes; it must not go further than the memory, which
is less than was asked for only if its size wraps. -/
structure Filled (n : ℕ) (bytes : List α) (o : Outstanding α) : Prop where
  /-- The reservation is as long as was asked for. -/
  length : o.length = n
  /-- A commit of no more than was reserved succeeds, and gives the buffer that many bytes on the
  heap, the first of which are those of the message. -/
  commit : ∀ m ≤ n, m ≤ sliceSize n → ∀ w, ∃ b w' c,
    commitReceived o {} m w = some (b, w') ∧ b.Holds w' c ∧ b.OnHeap ∧ c.length = m ∧
      bytes.take m <+: c

/-- The first bytes of a storage into which the message was written are a filled reservation. -/
theorem filled_storage {n : ℕ} {storage : Storage α} (hsize : storage.size = sliceSize n)
    {bytes : List α} (hbytes : ∀ m, bytes.take m <+: Memory.read storage.mem 0 m) :
    Filled n bytes (.single ⟨⟨some (.storage storage.id, 0), n⟩,
      some (.single ⟨some storage, sliceSize n⟩)⟩) := by
  refine ⟨rfl, fun m hm hfits w ↦ ?_⟩
  rw [← hsize] at hfits ⊢
  obtain ⟨b, w', hcommit, hholds, hheap⟩ := exists_commit_storage hm hfits w
  exact ⟨b, w', _, hcommit, hholds, hheap, Memory.length_read _ _ _, hbytes m⟩

/-- What was written is at the beginning of the memory. -/
theorem take_prefix_read_write (mem : ℕ → α) (bytes : List α) (m : ℕ) :
    bytes.take m <+: Memory.read (Memory.write mem 0 bytes) 0 m := by
  have hself : Memory.read (Memory.write mem 0 bytes) 0 bytes.length = bytes :=
    Memory.read_write_self mem 0 bytes
  rcases Nat.le_total m bytes.length with hle | hle
  · conv_lhs => rw [← hself]
    rw [Memory.take_read, Nat.min_eq_left hle]
  · obtain ⟨k, rfl⟩ := Nat.exists_eq_add_of_le hle
    rw [Memory.read_add, hself, List.take_of_length_le hle]
    exact List.prefix_append _ _

/-- A message can be written to a new reservation. -/
theorem exists_reserve (n : ℕ) (separateSlice : Bool) (w : World α) :
    ∃ r w', OwnedImpl.reserveSingleSlice {} n separateSlice w = (r, {}, w') ∧ r.slice.len = n ∧
      ∀ (bytes : List α) (w : World α), bytes.length ≤ n →
        ∃ o, writeReceived (.single r) {} bytes w = some (o, {}, w) ∧ Filled n bytes o := by
  by_cases hn : n = 0
  · subst hn
    refine ⟨{}, w, rfl, rfl, fun bytes v hbytes ↦ ?_⟩
    obtain rfl : bytes = [] := List.length_eq_zero_iff.1 (Nat.le_zero.1 hbytes)
    refine ⟨.single {}, rfl, rfl, fun m hm _ v ↦ ?_⟩
    obtain rfl : m = 0 := Nat.le_zero.1 hm
    exact ⟨{}, v, [], rfl, OwnedImpl.holds_empty v, onHeap_empty, rfl, List.prefix_rfl⟩
  · refine ⟨_, _, reserveSingleSlice_empty hn separateSlice w, rfl, fun bytes v hbytes ↦ ?_⟩
    let storage : Storage α := (w.allocate (sliceSize n)).1
    by_cases hnil : bytes = []
    · subst hnil
      have hfilled : Filled n [] (.single ⟨⟨some (.storage storage.id, 0), n⟩,
          some (.single ⟨some storage, sliceSize n⟩)⟩) := filled_storage rfl fun m ↦ by
        rw [List.take_nil]
        exact List.nil_prefix
      exact ⟨_, rfl, hfilled⟩
    · have hempty : bytes.isEmpty = false := List.isEmpty_eq_false_iff.2 hnil
      let written : Storage α := { storage with mem := Memory.write storage.mem 0 bytes }
      refine ⟨.single ⟨⟨some (.storage written.id, 0), n⟩,
        some (.single ⟨some written, sliceSize n⟩)⟩, ?_,
        filled_storage rfl (take_prefix_read_write storage.mem bytes)⟩
      rw [writeReceived, hempty, if_neg Bool.false_ne_true]
      show (if n < 0 + bytes.length then none else _) = _
      rw [Nat.zero_add, if_neg (Nat.not_lt.2 hbytes)]
      rfl

/-- What a message leaves in the buffer: nothing if the call failed, and otherwise the bytes that
were received, as far as they go. -/
structure LeavesInBuffer (maxRxDatagramSize : UInt64) (bytes : List α) (r : ReceiveState σ α ε) :
    Prop where
  /-- The buffer has no slice over a fragment. -/
  onHeap : r.buffer.OnHeap
  /-- It is empty if the call failed, and has the bytes of the message otherwise. -/
  holds : ∃ c, r.buffer.Holds r.world c ∧
    (r.result.ok = false → c = []) ∧
    (r.result.ok = true → c.length = (min maxRxDatagramSize r.result.returnValue).toNat ∧
      bytes.take c.length <+: c)

/-- Whatever `recvmsg` did, the message is taken over if it fits into the slice and into the memory
behind it. -/
theorem exists_receiveMessage {maxRxDatagramSize : UInt64} {packetsDropped : Option UInt32}
    {env env' : σ}
    {ip : Ip} {result : IoCallUint64Result ε} {received : Received α} {dropped : UInt32}
    (hip : localAddress.ip = some ip)
    (hrecvmsg : handle.recvmsg maxRxDatagramSize.toNat ip.port packetsDropped env =
      (result, received, dropped, env'))
    (hslice : received.bytes.length ≤ maxRxDatagramSize.toNat)
    (hmemory : result.ok = true →
      (min maxRxDatagramSize result.returnValue).toNat ≤ sliceSize maxRxDatagramSize.toNat)
    (w : World α) :
    ∃ r, receiveMessage handle localAddress maxRxDatagramSize {} packetsDropped env w = some r ∧
      r.result = result ∧ r.info = received.info ∧
      r.packetsDropped = packetsDropped.map (fun _ ↦ dropped) ∧
      LeavesInBuffer maxRxDatagramSize received.bytes r := by
  obtain ⟨reservation, w₁, hreserve, hlen, hwrites⟩ :=
    exists_reserve maxRxDatagramSize.toNat false w
  obtain ⟨o, hwrite, hfilled⟩ := hwrites received.bytes w₁ hslice
  rw [receiveMessage, hreserve]
  show ∃ r, localAddress.ip.bind _ = some r ∧ _
  rw [hip, Option.bind_some, hlen, hrecvmsg]
  show ∃ r, (writeReceived _ {} received.bytes w₁).bind _ = some r ∧ _
  rw [hwrite, Option.bind_some]
  cases hok : result.ok with
  | false =>
    refine ⟨_, rfl, rfl, rfl, rfl, onHeap_empty, [], OwnedImpl.holds_empty _, fun _ ↦ rfl, ?_⟩
    intro htrue
    exact absurd (hok.symm.trans htrue) Bool.noConfusion
  | true =>
    have hle : (min maxRxDatagramSize result.returnValue).toNat ≤ maxRxDatagramSize.toNat :=
      toNat_min_uint64_le_left _ _
    obtain ⟨b, w₂, c, hcommit, hholds, hheap, hclen, hprefix⟩ :=
      hfilled.commit _ hle (hmemory hok) w₁
    show ∃ r, (commitReceived o {} _ w₁).map _ = some r ∧ _
    rw [hcommit]
    refine ⟨_, rfl, rfl, rfl, rfl, hheap, c, hholds, ?_, fun _ ↦ ⟨hclen, hclen ▸ hprefix⟩⟩
    intro hfalse
    exact absurd (hok.symm.trans hfalse) Bool.noConfusion

/-! ### The packets of a payload

With the segment size from the message the payload is cut into datagrams again, all of them of that
size but possibly the last one.
-/

/-- `recvmsg` receives `payload` into a slice of `len` bytes: it succeeds, returns the number of
bytes and says that nothing was truncated. What it writes is within the slice, and within the memory
behind it, which has less than `len` bytes only if the size of the allocation wraps. -/
structure IoHandle.Receives (handle : IoHandle σ α ε) (localAddress : Instance) (len : ℕ)
    (packetsDropped : Option UInt32) (env : σ) (payload : List α) (info : RecvMsgPerPacketInfo) :
    Prop where
  /-- What `recvmsg` returns and writes. -/
  recvmsg : ∃ ip dropped env', localAddress.ip = some ip ∧
    handle.recvmsg len ip.port packetsDropped env =
      (⟨.ofNat payload.length, none⟩, ⟨payload, info⟩, dropped, env')
  /-- Nothing of the message was cut off. -/
  complete : info.truncatedAndDropped = false
  /-- The payload fits into the slice. -/
  within_slice : payload.length ≤ len
  /-- The payload fits into the memory behind the slice. -/
  within_memory : payload.length ≤ sliceSize len

/-- What is received is what the buffer holds. -/
theorem IoHandle.Receives.exists_receiveMessage {maxRxDatagramSize : UInt64}
    {packetsDropped : Option UInt32} {env : σ} {payload : List α}
    (h : handle.Receives localAddress maxRxDatagramSize.toNat packetsDropped env payload info)
    (w : World α) :
    ∃ r, receiveMessage handle localAddress maxRxDatagramSize {} packetsDropped env w = some r ∧
      r.result = ⟨.ofNat payload.length, none⟩ ∧ r.info = info ∧ r.buffer.Holds r.world payload ∧
      r.buffer.OnHeap := by
  obtain ⟨ip, dropped, env', hip, hrecvmsg⟩ := h.recvmsg
  have hlt : payload.length < 2 ^ 64 := h.within_slice.trans_lt maxRxDatagramSize.toNat_lt
  have hmin : (min maxRxDatagramSize (.ofNat payload.length)).toNat = payload.length := by
    rw [toNat_min_uint64, UInt64.toNat_ofNat', Nat.mod_eq_of_lt hlt,
      Nat.min_eq_right h.within_slice]
  obtain ⟨r, hreceive, hresult, hinfo, -, hheap, c, hholds, -, hc⟩ :=
    Network.exists_receiveMessage hip hrecvmsg h.within_slice
      (fun _ ↦ hmin.trans_le h.within_memory) w
  have hok : r.result.ok = true := by
    rw [hresult]
    rfl
  obtain ⟨hlen, hprefix⟩ := hc hok
  rw [hresult, hmin] at hlen
  rw [hlen, List.take_length] at hprefix
  obtain rfl : payload = c := hprefix.eq_of_length hlen.symm
  exact ⟨r, hreceive, hresult, hinfo, hholds, hheap⟩

/-- The packets are the payload, `g` bytes at a time. -/
structure Partitions (info : RecvMsgPerPacketInfo) (payload : List α) (r : ReadResult σ α ε) :
    Prop where
  /-- There are as many packets as segments, rounded up. -/
  count : r.handed.length = (payload.length + info.gsoSize.toNat - 1) / info.gsoSize.toNat
  /-- All packets but the last one have the segment size, and the last one is not empty. -/
  sizes : ∀ (i : ℕ) (p : HandedPacket α), r.handed[i]? = some p →
    (i + 1 < r.handed.length → p.bytes.length = info.gsoSize.toNat) ∧
      1 ≤ p.bytes.length ∧ p.bytes.length ≤ info.gsoSize.toNat
  /-- The packets together are the payload. -/
  concat : (r.handed.map HandedPacket.bytes).flatten = payload
  /-- Every packet has the addresses of the message. -/
  carries : ∀ p ∈ r.handed, p.Carries info
  /-- The buffer that is left over is empty. -/
  source : ∃ source, r.left = [source] ∧ source.length = 0 ∧ source.toString r.world = []

/-- **GRO segmentation partitions the payload**, whatever the processor does to the memory of others
between two packets. What is recorded of the packets are the calls of the processor: the read leaves
what they leave. -/
theorem gro_partitions_payload {packetsDropped : Option UInt32} {env : σ} {payload : List α}
    (h : handle.Receives localAddress
      (numDatagramsPerReceive * processor.maxDatagramSize env).toNat packetsDropped env payload
        info)
    (hgso : info.gsoSize ≠ 0) (receiveTime : MonotonicTime) (w : World α) :
    ∃ r, readFromSocket handle localAddress processor receiveTime true packetsDropped env w =
      some r ∧
      r.result = ⟨.ofNat payload.length, none⟩ ∧ Partitions info payload r ∧
      r.FollowsCalls handle localAddress processor packetsDropped env := by
  obtain ⟨⟨result, info', dropped, buffer, env', w'⟩, hreceive, rfl, rfl, hholds, hheap⟩ :=
    h.exists_receiveMessage w
  dsimp only at hholds hheap
  have hmax : payload.length ≤ maxSliceSize := h.within_memory.trans (sliceSize_le _)
  have hpos : 0 < info'.gsoSize.toNat := by
    rw [Nat.pos_iff_ne_zero, ← UInt32.toNat_zero]
    exact UInt32.toNat_inj.not.2 hgso
  have hgso' : info'.gsoSize.toUInt64 ≠ 0 := by
    rw [Ne, ← UInt64.toNat_inj, UInt32.toNat_toUInt64, UInt64.toNat_zero]
    exact hpos.ne'
  have hlength : buffer.length.toNat = payload.length :=
    hholds.toNat_length (by rw [maxSliceSize] at hmax; omega)
  obtain ⟨handed, source, env'', w'', hloop, hchunks, hend, hcarries⟩ :=
    exists_segmentLoop processor info' hgso' receiveTime hholds hheap hmax hlength.ge env'
  have hcount := hchunks.length_eq hpos
  rw [List.length_map] at hcount
  have hread : readFromSocket handle localAddress processor receiveTime true packetsDropped env w =
      some (ReadResult.finish
        { result := ⟨.ofNat payload.length, none⟩, packetsDropped := dropped, handed
          left := [source], env := env'', world := w'' }) := by
    rw [readFromSocket, if_pos rfl]
    show (receiveMessage handle localAddress (numDatagramsPerReceive *
      processor.maxDatagramSize env) {}
      packetsDropped env w).bind _ = _
    rw [hreceive, Option.bind_some]
    show (if (false || info'.truncatedAndDropped) = true then _ else _) = _
    rw [h.complete, Bool.or_false, if_neg Bool.false_ne_true]
    show (if info'.gsoSize.toUInt64 = 0 then _ else _) = _
    rw [if_neg hgso', hloop]
    rfl
  refine ⟨_, hread, rfl, ⟨hcount, fun i p hp ↦ ?_, hchunks.flatten, hcarries, source, rfl,
    hend.length, (hend.of_nil _).toString_eq⟩, followsCalls_of_readFromSocket hread⟩
  have hp : (handed.map HandedPacket.bytes)[i]? = some p.bytes := by
    rw [List.getElem?_map, show handed[i]? = some p from hp]
    rfl
  show (i + 1 < handed.length → _) ∧ _
  rw [← List.length_map HandedPacket.bytes]
  exact hchunks.getElem? hpos hp

/-- Seven bytes have arrived, in datagrams of three. -/
def sevenBytesHandle : IoHandle Unit ℕ Unit where
  supportsMmsg := false
  supportsUdpGro := true
  recvmsg _ _ _ env := (⟨7, none⟩, ⟨[0, 1, 2, 3, 4, 5, 6], { gsoSize := 3 }⟩, 0, env)
  recvmmsg _ _ _ env := (⟨0, none⟩, fun _ ↦ {}, 0, env)

/-- Packets are thrown away. -/
def discardingProcessor (σ : Type*) : UdpPacketProcessor σ ℕ where
  processPacket _ _ buffer _ env w := (env, buffer.destroy w)
  onDatagramsDropped _ env w := (env, w)
  maxDatagramSize _ := 1500
  numPacketsExpectedPerEventLoop _ := 10

theorem gro_partitions_payload_sevenBytes :
    ∃ r, readFromSocket sevenBytesHandle (.ipv4 (.ofPort 80)) (discardingProcessor Unit) 0 true
      (some 0) ()
        { fragments := fun _ _ ↦ 0, fresh := fun _ _ ↦ 0 } = some r ∧
      r.result = ⟨7, none⟩ ∧ Partitions { gsoSize := 3 } [0, 1, 2, 3, 4, 5, 6] r ∧
      r.FollowsCalls sevenBytesHandle (.ipv4 (.ofPort 80)) (discardingProcessor Unit) (some 0)
        () := by
  have hreceives : sevenBytesHandle.Receives (.ipv4 (.ofPort 80))
      (numDatagramsPerReceive * (discardingProcessor Unit).maxDatagramSize ()).toNat (some 0) ()
      [0, 1, 2, 3, 4, 5, 6] { gsoSize := 3 } :=
    ⟨⟨_, _, _, rfl, rfl⟩, rfl, by decide, by decide⟩
  exact gro_partitions_payload hreceives (by decide) 0 _

end Network

end TcpServer
