import TcpServer.Network.UdpPackets
import Mathlib.Data.List.Forall2

/-!
# One packet for each message

Without GRO every message has a buffer of its own. With `recvmmsg` all sixteen are reserved before
the call and written by it, and the processor of one packet runs before the next is committed; what
it does to the memory in between must not reach the messages that wait. So what is known of a
message is kept as a property of its reservation (`Filled`), which no other memory is part of.

A message that was truncated is skipped, and its buffer is destroyed with what was written to it.
The messages that are left and the packets correspond one to one, in the order of the slices
(`messages_delivered`).
-/

namespace TcpServer.Network

open Buffer

variable {σ α ε : Type*} {handle : IoHandle σ α ε} {localAddress : Instance}
  {processor : UdpPacketProcessor σ α}

/-- The messages that are handed over. -/
def untruncated (messages : List (Received α)) : List (Received α) :=
  messages.filter fun message ↦ !message.info.truncatedAndDropped

/-- A message whose length is that of its bytes. They fit the memory behind the slice, which has
less than `len` bytes only if the size of the allocation wraps. -/
structure Received.Complete (len : ℕ) (message : Received α) : Prop where
  /-- The length that is reported is the number of bytes. -/
  msgLen : message.info.msgLen.toNat = message.bytes.length
  /-- The message fits into its slice. -/
  within_slice : message.bytes.length ≤ len
  /-- The message fits into the memory behind the slice. -/
  within_memory : message.bytes.length ≤ sliceSize len

/-- What a call receives: one message, or several with `recvmmsg`. It succeeds, returns the number
of bytes or of messages, and writes within the slices. -/
inductive IoHandle.Receipt (handle : IoHandle σ α ε) (localAddress : Instance) (len : ℕ)
    (packetsDropped : Option UInt32) (env : σ) : List (Received α) → Prop
  | one {ip : Ip} {message : Received α} {dropped : UInt32} {env' : σ}
    (hmmsg : handle.supportsMmsg = false) (hip : localAddress.ip = some ip)
    (hcall : handle.recvmsg len ip.port packetsDropped env =
      (⟨.ofNat message.bytes.length, none⟩, message, dropped, env'))
    (hslice : message.bytes.length ≤ len) (hmemory : message.bytes.length ≤ sliceSize len) :
    Receipt handle localAddress len packetsDropped env [message]
  | several {ip : Ip} {messages : List (Received α)} {received : ℕ → Received α} {dropped : UInt32}
    {env' : σ} (hmmsg : handle.supportsMmsg = true) (hip : localAddress.ip = some ip)
    (hcall : handle.recvmmsg (List.replicate numDatagramsPerReceive.toNat len) ip.port
      packetsDropped env =
      (⟨.ofNat messages.length, none⟩, received, dropped, env'))
    (hcount : messages.length ≤ numDatagramsPerReceive.toNat)
    (hreceived : ∀ (i : ℕ) (h : i < messages.length), received i = messages[i])
    (hslices : ∀ i, (received i).bytes.length ≤ len)
    (hcomplete : ∀ message ∈ untruncated messages, message.Complete len) :
    Receipt handle localAddress len packetsDropped env messages

/-- The packet of a message. -/
structure HandedPacket.Delivers (receiveTime : MonotonicTime) (message : Received α)
    (p : HandedPacket α) : Prop where
  /-- The processor finds the bytes of the message in the buffer. -/
  bytes : p.bytes = message.bytes
  /-- The number of bytes that is reported is that of the message. -/
  bytesRead : p.bytesRead = .ofNat message.bytes.length
  /-- The sender is that of the message. -/
  peerAddress : p.peerAddress = message.info.peerAddress
  /-- The receiver is that of the message. -/
  localAddress : p.localAddress = message.info.localAddress
  /-- The time is that of the read. -/
  receiveTime : p.receiveTime = receiveTime

/-! ### The loop

The loop over the packets commits the reservation of a message and hands the buffer over, with
whatever memory the processor of the packets before it has left.
-/

/-- Writing does not reorder the messages. -/
theorem writeEach_received {l l' : List (BufferAndReservation α × Received α)} {w w' : World α}
    (h : writeEach l w = some (l', w')) : l'.map Prod.snd = l.map Prod.snd := by
  induction l generalizing l' w w' with
  | nil =>
    obtain ⟨rfl, -⟩ := Prod.mk.inj (Option.some.inj h)
    rfl
  | cons x l ih =>
    rw [writeEach] at h
    obtain ⟨⟨o, b, w₁⟩, -, h⟩ := Option.bind_eq_some_iff.1 h
    obtain ⟨⟨rest, w₂⟩, hrest, h⟩ := Option.map_eq_some_iff.1 h
    obtain ⟨rfl, -⟩ := Prod.mk.inj h
    rw [List.map_cons, List.map_cons, ih hrest]

/-- A message is committed with all its bytes, in whatever memory. -/
theorem Filled.exists_delivery {maxRxDatagramSize : UInt64} {message : Received α}
    {o : Outstanding α}
    (ho : Filled maxRxDatagramSize.toNat message.bytes o)
    (hmessage : message.Complete maxRxDatagramSize.toNat) (w : World α) :
    ∃ b w', commitReceived o {} (min maxRxDatagramSize message.info.msgLen.toUInt64).toNat w =
      some (b, w') ∧ b.Holds w' message.bytes := by
  have hlen : (min maxRxDatagramSize message.info.msgLen.toUInt64).toNat =
      message.bytes.length := by
    rw [toNat_min_uint64, UInt32.toNat_toUInt64, hmessage.msgLen,
      Nat.min_eq_right hmessage.within_slice]
  rw [hlen]
  obtain ⟨b, w', c, hcommit, hholds, -, hclen, hbegin⟩ :=
    ho.commit _ hmessage.within_slice hmessage.within_memory w
  rw [List.take_length] at hbegin
  obtain rfl : message.bytes = c := hbegin.eq_of_length hclen.symm
  exact ⟨b, w', hcommit, hholds⟩

/-- The packets are those of the messages that were not truncated, whatever the processor does. -/
theorem exists_packetsLoop (processor : UdpPacketProcessor σ α) {maxRxDatagramSize : UInt64}
    (receiveTime : MonotonicTime) {messages : List (Received α)}
    {l : List (BufferAndReservation α × Received α)} (hl : messages <+: l.map Prod.snd)
    (hfilled : ∀ x ∈ l, x.1.buffer = {} ∧ Filled maxRxDatagramSize.toNat x.2.bytes x.1.reservation)
    (hmessages : ∀ message ∈ untruncated messages, message.Complete maxRxDatagramSize.toNat)
    (env : σ) (w : World α) :
    ∃ handed left env' w', packetsLoop processor maxRxDatagramSize receiveTime messages.length l env
      w =
        some (handed, left, env', w') ∧
      List.Forall₂ (HandedPacket.Delivers receiveTime) (untruncated messages) handed := by
  induction messages generalizing l env w with
  | nil => exact ⟨[], _, env, w, rfl, .nil⟩
  | cons message messages ih =>
    match l with
    | [] => exact absurd (List.prefix_nil.1 hl) (List.cons_ne_nil _ _)
    | (b, received) :: l =>
      obtain ⟨rfl, hrest⟩ : message = received ∧ messages <+: l.map Prod.snd :=
        List.cons_prefix_cons.1 hl
      obtain ⟨⟨hbuffer, ho⟩, hfilled⟩ := List.forall_mem_cons.1 hfilled
      rw [List.length_cons, packetsLoop]
      dsimp only
      cases htruncated : message.info.truncatedAndDropped with
      | true =>
        have hskip : untruncated (message :: messages) = untruncated messages :=
          List.filter_cons_of_neg (by rw [htruncated]; exact Bool.false_ne_true)
        rw [hskip] at hmessages ⊢
        obtain ⟨handed, left, env', w', hloop, hhanded⟩ := ih hrest hfilled hmessages env w
        rw [if_pos rfl, hloop]
        exact ⟨handed, b.buffer :: left, env', w', rfl, hhanded⟩
      | false =>
        have hkeep : untruncated (message :: messages) = message :: untruncated messages :=
          List.filter_cons_of_pos (by rw [htruncated]; rfl)
        rw [hkeep] at hmessages ⊢
        obtain ⟨hcomplete, hmessages⟩ := List.forall_mem_cons.1 hmessages
        obtain ⟨buffer, w₁, hcommit, hholds⟩ := ho.exists_delivery hcomplete w
        rw [if_neg Bool.false_ne_true, hbuffer, hcommit, Option.bind_some]
        dsimp only [passPayloadToProcessor]
        obtain ⟨handed, left, env', w', hloop, hhanded⟩ := ih hrest hfilled hmessages _ _
        rw [hloop]
        refine ⟨_, left, env', w', rfl, .cons ⟨hholds.toString_eq, ?_, rfl, rfl, rfl⟩ hhanded⟩
        rw [← hcomplete.msgLen]
        exact (UInt64.ofNat_toNat (x := message.info.msgLen.toUInt64)).symm

/-! ### The read -/

/-- **Every message that is not truncated is handed over, once and in order**, in a buffer that
holds its bytes, whatever the processor does to the memory of others in between. What is recorded of
the packets are the calls of the processor: the read leaves what they leave. -/
theorem messages_delivered {packetsDropped : Option UInt32} {env : σ} {messages : List (Received α)}
    (h : handle.Receipt localAddress (processor.maxDatagramSize env).toNat packetsDropped env
      messages)
    (receiveTime : MonotonicTime) (w : World α) :
    ∃ r, readFromSocket handle localAddress processor receiveTime false packetsDropped env w =
      some r ∧
      r.result.ok = true ∧
        List.Forall₂ (HandedPacket.Delivers receiveTime) (untruncated messages) r.handed ∧
        r.FollowsCalls handle localAddress processor packetsDropped env := by
  suffices hread : ∃ r, readFromSocket handle localAddress processor receiveTime false
    packetsDropped
      env w = some r ∧ r.result.ok = true ∧
        List.Forall₂ (HandedPacket.Delivers receiveTime) (untruncated messages) r.handed by
    obtain ⟨r, hread, hok, hdelivers⟩ := hread
    exact ⟨r, hread, hok, hdelivers, followsCalls_of_readFromSocket hread⟩
  rw [readFromSocket, if_neg Bool.false_ne_true]
  cases h with
  | @one ip message dropped env' hmmsg hip hcall hslice hmemory =>
    rw [hmmsg, if_neg Bool.false_ne_true]
    dsimp only
    have hlt : message.bytes.length < 2 ^ 64 :=
      hslice.trans_lt (processor.maxDatagramSize env).toNat_lt
    have hmin : (min (processor.maxDatagramSize env) (.ofNat message.bytes.length)).toNat =
        message.bytes.length := by
      rw [toNat_min_uint64, UInt64.toNat_ofNat', Nat.mod_eq_of_lt hlt, Nat.min_eq_right hslice]
    obtain ⟨⟨result, info, dropped', buffer, env', w'⟩, hreceive, rfl, rfl, -, -, c, hholds, -,
        hc⟩ :=
      exists_receiveMessage hip hcall hslice (fun _ ↦ hmin.trans_le hmemory) w
    obtain ⟨hlen, hbegin⟩ := hc rfl
    dsimp only at hholds hlen hbegin
    rw [hmin] at hlen
    rw [hlen, List.take_length] at hbegin
    obtain rfl : message.bytes = c := hbegin.eq_of_length hlen.symm
    rw [hreceive, Option.bind_some]
    dsimp only
    cases htruncated : message.info.truncatedAndDropped with
    | true =>
      refine ⟨_, rfl, rfl, ?_⟩
      rw [untruncated, List.filter_cons_of_neg (by rw [htruncated]; exact Bool.false_ne_true)]
      exact .nil
    | false =>
      refine ⟨_, rfl, rfl, ?_⟩
      rw [untruncated, List.filter_cons_of_pos (by rw [htruncated]; rfl)]
      exact .cons ⟨hholds.toString_eq, rfl, rfl, rfl, rfl⟩ .nil
  | @several ip messages received dropped env' hmmsg hip hcall hcount hreceived hslices hcomplete =>
    rw [hmmsg, if_pos rfl]
    obtain ⟨bs, w₁, hbuffers, hlength, hbs⟩ :=
      exists_makeBuffers (processor.maxDatagramSize env) numDatagramsPerReceive.toNat w
    have hlens : bs.map (·.reservation.length) =
        List.replicate numDatagramsPerReceive.toNat (processor.maxDatagramSize env).toNat := by
      rw [List.eq_replicate_iff, List.length_map, hlength]
      refine ⟨rfl, fun n hn ↦ ?_⟩
      obtain ⟨b, hb, rfl⟩ := List.mem_map.1 hn
      exact (hbs b hb).length
    have hwritable : ∀ x ∈ bs.mapIdx fun i b ↦ (b, received i),
        x.1.Writable (processor.maxDatagramSize env).toNat ∧
          x.2.bytes.length ≤ (processor.maxDatagramSize env).toNat := by
      intro x hx
      obtain ⟨i, hi, rfl⟩ := List.mem_mapIdx.1 hx
      exact ⟨hbs bs[i] (List.getElem_mem hi), hslices i⟩
    obtain ⟨l, heach, -, hl⟩ := exists_writeEach hwritable w₁
    have hbegin : messages <+: l.map Prod.snd := by
      rw [writeEach_received heach, List.prefix_iff_getElem?]
      intro i hi
      have hbound : i < bs.length := hi.trans_le (hcount.trans hlength.ge)
      rw [List.getElem?_map, List.getElem?_mapIdx, List.getElem?_eq_getElem hbound,
        ← hreceived i hi]
      rfl
    obtain ⟨handed, left, env'', w', hloop, hhanded⟩ :=
      exists_packetsLoop processor receiveTime hbegin hl hcomplete env' w₁
    have hlt : messages.length < 2 ^ 64 := hcount.trans_lt (by decide)
    rw [readMmsg, hbuffers]
    show ∃ r, localAddress.ip.bind _ = some r ∧ _
    rw [hip, Option.bind_some, hlens, hcall]
    show ∃ r, (writeEach (bs.mapIdx fun i b ↦ (b, received i)) w₁).bind _ = some r ∧ _
    rw [heach, Option.bind_some]
    show ∃ r, (packetsLoop processor _ receiveTime (UInt64.ofNat messages.length).toNat l env'
      w₁).map _ =
      some r ∧ _
    rw [UInt64.toNat_ofNat', Nat.mod_eq_of_lt hlt, hloop]
    exact ⟨_, rfl, rfl, hhanded⟩

/-- Three messages arrive at once, of which the second was truncated. -/
def threeMessages : List (Received ℕ) :=
  [⟨[1, 2], { msgLen := 2 }⟩, ⟨[3], { truncatedAndDropped := true }⟩, ⟨[4, 5, 6], { msgLen := 3 }⟩]

/-- A socket with `recvmmsg` on which these messages arrive. -/
def threeMessagesHandle : IoHandle Unit ℕ Unit where
  supportsMmsg := true
  supportsUdpGro := false
  recvmsg _ _ _ env := (⟨0, none⟩, {}, 0, env)
  recvmmsg _ _ _ env := (⟨3, none⟩, fun i ↦ threeMessages.getD i {}, 0, env)

theorem messages_delivered_truncated :
    ∃ r, readFromSocket threeMessagesHandle (.ipv4 (.ofPort 80)) (discardingProcessor Unit) 0 false
        (some 0) () { fragments := fun _ _ ↦ 0, fresh := fun _ _ ↦ 0 } = some r ∧
      r.result.ok = true ∧
        List.Forall₂ (HandedPacket.Delivers 0) (untruncated threeMessages) r.handed ∧
        r.FollowsCalls threeMessagesHandle (.ipv4 (.ofPort 80)) (discardingProcessor Unit)
          (some 0) () := by
  refine messages_delivered (.several rfl rfl rfl (by decide) ?_ ?_ ?_) 0 _
  · intro i hi
    rw [List.getD_eq_getElem?_getD, List.getElem?_eq_getElem hi, Option.getD_some]
  · intro i
    match i with
    | 0 | 1 | 2 => decide
    | _ + 3 => exact Nat.zero_le _
  · have hkept : untruncated threeMessages =
        [⟨[1, 2], { msgLen := 2 }⟩, ⟨[4, 5, 6], { msgLen := 3 }⟩] := rfl
    rw [hkept, List.forall_mem_cons, List.forall_mem_singleton]
    exact ⟨⟨rfl, by decide, by decide⟩, rfl, by decide, by decide⟩

end TcpServer.Network
