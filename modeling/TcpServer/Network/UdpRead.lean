import TcpServer.Buffer.Contents
import TcpServer.Lib.Chunks
import TcpServer.Network.Copy

/-!
# Reading datagrams

`Utility::readFromSocket` has three ways to read. With GRO the kernel hands over many datagrams in
one buffer, which is cut into buffers of `gso_size` bytes; with `recvmmsg` sixteen buffers are
filled in one call; and without either one datagram is read.

The socket, the processor of the packets and the clock are not part of the source. They are
parameters that share a state `σ`, and the processor may do to the memory of the buffers whatever it
likes. What is read is recorded with the memory in which it was handed over (`HandedPacket`).

Where the source would dereference what is not there, or run past the end of a vector, there is no
result. That the reads of a socket that keeps to its interface have a result is a theorem of its
own.
-/

namespace TcpServer.Network

open TcpServer.Buffer

variable {σ α ε : Type*}

/-! ### Unsigned numbers -/

theorem toNat_min_uint64 (a b : UInt64) : (min a b).toNat = min a.toNat b.toNat := by
  show (if a ≤ b then a else b).toNat = _
  rw [apply_ite UInt64.toNat, min_def]
  exact if_congr UInt64.le_iff_toNat_le rfl rfl

theorem toNat_max_uint64 (a b : UInt64) : (max a b).toNat = max a.toNat b.toNat := by
  show (if a ≤ b then b else a).toNat = _
  rw [apply_ite UInt64.toNat, max_def]
  exact if_congr UInt64.le_iff_toNat_le rfl rfl

theorem toNat_min_uint64_le_left (a b : UInt64) : (min a b).toNat ≤ a.toNat := by
  rw [toNat_min_uint64]
  exact Nat.min_le_left _ _

theorem toNat_pos_uint64 {a : UInt64} (h : a ≠ 0) : 0 < a.toNat := by
  rw [Nat.pos_iff_ne_zero, ← UInt64.toNat_zero]
  exact UInt64.toNat_inj.not.2 h

/-! ### What is read from and handed to -/

/-- A point in time. -/
abbrev MonotonicTime := ℤ

/-- An `Api::IoCallUint64Result`. -/
structure IoCallUint64Result (ε : Type*) where
  /-- The number of bytes or of messages, if there is no error. -/
  returnValue : UInt64
  /-- The error, if there is one. -/
  err : Option ε

/-- `IoCallResult::ok`: there is no error. -/
def IoCallUint64Result.ok (r : IoCallUint64Result ε) : Bool := r.err.isNone

/-- `IoHandle::RecvMsgPerPacketInfo`. -/
structure RecvMsgPerPacketInfo where
  /-- The address that the message was sent to. -/
  localAddress : Option Instance := none
  /-- The address that it was sent from. -/
  peerAddress : Option Instance := none
  /-- The number of bytes of the message. -/
  msgLen : UInt32 := 0
  /-- The size of the datagrams in the message, or zero if it is a single one. -/
  gsoSize : UInt32 := 0
  /-- The message did not fit into the slice, so it is dropped. -/
  truncatedAndDropped : Bool := false

/-- What is received of one message: the bytes that are written to the memory of a slice, from its
beginning, and what is said about them. -/
structure Received (α : Type*) where
  /-- The bytes that are written to the memory of the slice. -/
  bytes : List α := []
  /-- What the socket says about the message. -/
  info : RecvMsgPerPacketInfo := {}

/-- A socket. `recvmsg` is told the length of the slice and `recvmmsg` that of each slice; the
number of packets dropped is read and written if there is a place for it. -/
structure IoHandle (σ α ε : Type*) where
  /-- Whether the socket has `recvmmsg`. -/
  supportsMmsg : Bool
  /-- Whether the socket can receive with GRO. -/
  supportsUdpGro : Bool
  /-- `IoHandle::recvmsg` with one slice: the result, the message, the counter that is written, and
  the state after the call. -/
  recvmsg (len : ℕ) (selfPort : BitVec 32) (droppedPackets : Option UInt32) (env : σ) :
    IoCallUint64Result ε × Received α × UInt32 × σ
  /-- `IoHandle::recvmmsg` with one slice for each message: the result, the messages, the counter
  that is written, and the state after the call. -/
  recvmmsg (lens : List ℕ) (selfPort : BitVec 32) (droppedPackets : Option UInt32) (env : σ) :
    IoCallUint64Result ε × (ℕ → Received α) × UInt32 × σ

/-- A processor of packets. It may change the state and the memory of the buffers, and is asked for
its sizes in the state that there is. -/
structure UdpPacketProcessor (σ α : Type*) where
  /-- `UdpPacketProcessor::processPacket`. -/
  processPacket (localAddress peerAddress : Option Instance) (buffer : OwnedImpl α)
    (receiveTime : MonotonicTime) (env : σ) (w : World α) : σ × World α
  /-- `UdpPacketProcessor::onDatagramsDropped`. -/
  onDatagramsDropped (dropped : UInt32) (env : σ) (w : World α) : σ × World α
  /-- `UdpPacketProcessor::maxDatagramSize`. -/
  maxDatagramSize (env : σ) : UInt64
  /-- `UdpPacketProcessor::numPacketsExpectedPerEventLoop`. -/
  numPacketsExpectedPerEventLoop (env : σ) : UInt64

/-- A packet that was handed to the processor, and the memory at that time. -/
structure HandedPacket (α : Type*) where
  /-- The number of bytes that were read, which the function that hands the packet over does not
  use. -/
  bytesRead : UInt64
  /-- The buffer that is handed over. -/
  buffer : OwnedImpl α
  /-- The address that the packet was sent from. -/
  peerAddress : Option Instance
  /-- The address that the packet was sent to. -/
  localAddress : Option Instance
  /-- The time of the read. -/
  receiveTime : MonotonicTime
  /-- The memory in which the packet was handed over. -/
  world : World α

namespace HandedPacket

/-- What the processor finds in the buffer. -/
def bytes (p : HandedPacket α) : List α := p.buffer.toString p.world

end HandedPacket

/-- What a read leaves: `left` are the buffers that were not handed over, before they are
destroyed. -/
structure ReadResult (σ α ε : Type*) where
  /-- What `readFromSocket` returns. -/
  result : IoCallUint64Result ε
  /-- The counter after the read, if there is a place for one. -/
  packetsDropped : Option UInt32
  /-- The packets that were handed to the processor, in their order. -/
  handed : List (HandedPacket α) := []
  /-- The buffers that were not handed over. -/
  left : List (OwnedImpl α) := []
  /-- The state of the socket, the processor and the clock. -/
  env : σ
  /-- The memory of the buffers. -/
  world : World α

namespace ReadResult

/-- The end of the function, where the buffers that are left are destroyed. -/
def finish (r : ReadResult σ α ε) : ReadResult σ α ε :=
  { r with world := r.left.foldl (fun w buffer ↦ buffer.destroy w) r.world }

end ReadResult

/-- `NUM_DATAGRAMS_PER_RECEIVE`. -/
def numDatagramsPerReceive : UInt64 := 16

/-! ### Reservations for one message -/

/-- The bytes of a message are written to the slice. Nothing is written without a byte. -/
def writeReceived (o : Outstanding α) (buffer : OwnedImpl α) (bytes : List α) (w : World α) :
    Option (Outstanding α × OwnedImpl α × World α) :=
  if bytes.isEmpty then some (o, buffer, w) else o.write buffer 0 0 bytes w

/-- `reservation.commit(length)`, which dereferences the owner unless the length is zero. -/
def commitReceived (o : Outstanding α) (buffer : OwnedImpl α) (length : ℕ) (w : World α) :
    Option (OwnedImpl α × World α) :=
  match o.owner with
  | some owner => buffer.commit length o.slices owner w
  | none => if length = 0 then some (buffer, w) else none

/-- The destructor of a reservation. -/
def destroyReservation (o : Outstanding α) (w : World α) : World α :=
  o.owner.elim w fun owner ↦ owner.destroy w

/-- What is left of a message that was received, and the state. -/
structure ReceiveState (σ α ε : Type*) where
  /-- What `recvmsg` returned. -/
  result : IoCallUint64Result ε
  /-- What it said about the message. -/
  info : RecvMsgPerPacketInfo
  /-- The counter after the call, if there is a place for one. -/
  packetsDropped : Option UInt32
  /-- The buffer, with what was committed to it. -/
  buffer : OwnedImpl α
  /-- The state after the call. -/
  env : σ
  /-- The memory after the commit. -/
  world : World α

/-- The port is that of `localAddress.ip()`, which must not be null. -/
def receiveMessage (handle : IoHandle σ α ε) (localAddress : Instance) (maxRxDatagramSize : UInt64)
    (buffer : OwnedImpl α) (packetsDropped : Option UInt32) (env : σ) (w : World α) :
    Option (ReceiveState σ α ε) :=
  let (reservation, buffer, w) := buffer.reserveSingleSlice maxRxDatagramSize.toNat false w
  localAddress.ip.bind fun ip ↦
    let (result, received, dropped, env) :=
      handle.recvmsg reservation.slice.len ip.port packetsDropped env
    let packetsDropped := packetsDropped.map fun _ ↦ dropped
    (writeReceived (.single reservation) buffer received.bytes w).bind fun (o, buffer, w) ↦
      if result.ok then
        (commitReceived o buffer (min maxRxDatagramSize result.returnValue).toNat w).map
          fun (buffer, world) ↦
            { result, info := received.info, packetsDropped, buffer, env, world }
      else
        some { result, info := received.info, packetsDropped, buffer, env
               world := destroyReservation o w }

/-! ### Handing over -/

/-- `passPayloadToProcessor`: one call of `processPacket`, and the record of it. -/
def passPayloadToProcessor (bytesRead : UInt64) (buffer : OwnedImpl α)
    (peerAddress localAddress : Option Instance) (processor : UdpPacketProcessor σ α)
    (receiveTime : MonotonicTime) (env : σ) (w : World α) : HandedPacket α × σ × World α :=
  ({ bytesRead, buffer, peerAddress, localAddress, receiveTime, world := w },
    processor.processPacket localAddress peerAddress buffer receiveTime env w)

/-- `while (buffer->length() > 0)`. Every iteration takes at least one byte. -/
def segmentLoop (processor : UdpPacketProcessor σ α) (info : RecvMsgPerPacketInfo)
    (gsoSize : UInt64)
    (receiveTime : MonotonicTime) : ℕ → OwnedImpl α → σ → World α →
    Option (List (HandedPacket α) × OwnedImpl α × σ × World α)
  | 0, buffer, env, w => if buffer.length = 0 then some ([], buffer, env, w) else none
  | fuel + 1, buffer, env, w =>
    if buffer.length = 0 then some ([], buffer, env, w)
    else
      let bytesToCopy := min buffer.length gsoSize
      (OwnedImpl.moveLength {} buffer bytesToCopy.toNat w).bind fun (subBuffer, buffer, w) ↦
        let (packet, env, w) := passPayloadToProcessor bytesToCopy subBuffer info.peerAddress
          info.localAddress processor receiveTime env w
        (segmentLoop processor info gsoSize receiveTime fuel buffer env w).map
          fun (handed, state) ↦ (packet :: handed, state)

/-! ### Several messages at once

All buffers are reserved and written to before the first one is committed. The processor of one
packet runs between two commits, in the memory that the packets before it have left.
-/

/-- A `BufferAndReservation`. -/
structure BufferAndReservation (α : Type*) where
  /-- The buffer of a message. -/
  buffer : OwnedImpl α
  /-- The reservation of the slice in it. -/
  reservation : Outstanding α

/-- `BufferAndReservation(max_rx_datagram_size)`, as many times as there are datagrams. -/
def makeBuffers (maxRxDatagramSize : UInt64) : ℕ → World α → List (BufferAndReservation α) × World α
  | 0, w => ([], w)
  | n + 1, w =>
    let (reservation, buffer, w) :=
      OwnedImpl.reserveSingleSlice {} maxRxDatagramSize.toNat true w
    let (buffers, w) := makeBuffers maxRxDatagramSize n w
    ({ buffer, reservation := .single reservation } :: buffers, w)

/-- Each message is written to the slice of its buffer. -/
def writeEach : List (BufferAndReservation α × Received α) → World α →
    Option (List (BufferAndReservation α × Received α) × World α)
  | [], w => some ([], w)
  | (b, received) :: rest, w =>
    (writeReceived b.reservation b.buffer received.bytes w).bind fun (reservation, buffer, w) ↦
      (writeEach rest w).map fun (rest, w) ↦ (({ buffer, reservation }, received) :: rest, w)

/-- The loop over the packets that were read. It must not run past the end of the vector. -/
def packetsLoop (processor : UdpPacketProcessor σ α) (maxRxDatagramSize : UInt64)
    (receiveTime : MonotonicTime) : ℕ → List (BufferAndReservation α × Received α) → σ → World α →
    Option (List (HandedPacket α) × List (OwnedImpl α) × σ × World α)
  | 0, rest, env, w => some ([], rest.map (·.1.buffer), env, w)
  | _ + 1, [], _, _ => none
  | n + 1, (b, received) :: rest, env, w =>
    let info := received.info
    if info.truncatedAndDropped then
      (packetsLoop processor maxRxDatagramSize receiveTime n rest env w).map
        fun (handed, left, state) ↦ (handed, b.buffer :: left, state)
    else
      let msgLen := info.msgLen.toUInt64
      (commitReceived b.reservation b.buffer (min maxRxDatagramSize msgLen).toNat w).bind
        fun (buffer, w) ↦
          let (packet, env, w) := passPayloadToProcessor msgLen buffer info.peerAddress
            info.localAddress processor receiveTime env w
          (packetsLoop processor maxRxDatagramSize receiveTime n rest env w).map
            fun (handed, state) ↦ (packet :: handed, state)

/-- The part of `readFromSocket` for sockets with `recvmmsg`. -/
def readMmsg (handle : IoHandle σ α ε) (localAddress : Instance)
    (processor : UdpPacketProcessor σ α)
    (maxRxDatagramSize : UInt64) (receiveTime : MonotonicTime) (packetsDropped : Option UInt32)
    (env : σ)
    (w : World α) : Option (ReadResult σ α ε) :=
  let (buffers, w) := makeBuffers maxRxDatagramSize numDatagramsPerReceive.toNat w
  localAddress.ip.bind fun ip ↦
    let (result, received, dropped, env) :=
      handle.recvmmsg (buffers.map (·.reservation.length)) ip.port packetsDropped env
    let packetsDropped := packetsDropped.map fun _ ↦ dropped
    (writeEach (buffers.mapIdx fun i b ↦ (b, received i)) w).bind fun (buffers, world) ↦
      if !result.ok then
        let left := buffers.map (·.1.buffer)
        some (ReadResult.finish { result, packetsDropped, left, env, world })
      else
        (packetsLoop processor maxRxDatagramSize receiveTime result.returnValue.toNat buffers env
            world).map fun (handed, left, env, world) ↦
          ReadResult.finish { result, packetsDropped, handed, left, env, world }

/-! ### The read -/

/-- `Utility::readFromSocket`. One of the three ways is taken, by what the caller prefers and the
socket has. -/
def readFromSocket (handle : IoHandle σ α ε) (localAddress : Instance)
    (processor : UdpPacketProcessor σ α) (receiveTime : MonotonicTime) (useGro : Bool)
    (packetsDropped : Option UInt32) (env : σ) (w : World α) : Option (ReadResult σ α ε) :=
  if useGro then
    let maxRxDatagramSizeWithGro := numDatagramsPerReceive * processor.maxDatagramSize env
    (receiveMessage handle localAddress maxRxDatagramSizeWithGro {} packetsDropped env w).bind
      fun { result, info, packetsDropped, buffer, env, world } ↦
        if !result.ok || info.truncatedAndDropped then
          some (ReadResult.finish { result, packetsDropped, left := [buffer], env, world })
        else
          let gsoSize := info.gsoSize.toUInt64
          if gsoSize = 0 then
            let (packet, env, world) := passPayloadToProcessor result.returnValue buffer
              info.peerAddress info.localAddress processor receiveTime env world
            some (ReadResult.finish { result, packetsDropped, handed := [packet], env, world })
          else
            (segmentLoop processor info gsoSize receiveTime buffer.length.toNat buffer env
              world).map
              fun (handed, buffer, env, world) ↦
                ReadResult.finish { result, packetsDropped, handed, left := [buffer], env, world }
  else if handle.supportsMmsg then
    readMmsg handle localAddress processor (processor.maxDatagramSize env) receiveTime
      packetsDropped env w
  else
    let maxDatagramSize := processor.maxDatagramSize env
    (receiveMessage handle localAddress maxDatagramSize {} packetsDropped env w).bind
      fun { result, info, packetsDropped, buffer, env, world } ↦
        if !result.ok || info.truncatedAndDropped then
          some (ReadResult.finish { result, packetsDropped, left := [buffer], env, world })
        else
          let (packet, env, world) := passPayloadToProcessor result.returnValue buffer
            info.peerAddress info.localAddress processor receiveTime env world
          some (ReadResult.finish { result, packetsDropped, handed := [packet], env, world })

/-! ### What the calls of the processor leave

A record of the calls says nothing by itself. So it is shown of each read that the state and the
memory after it are what the recorded calls leave, one behind the other, when the processor is
applied to their arguments.
-/

/-- The call that hands over the packet, and what it leaves. -/
def HandedPacket.call (processor : UdpPacketProcessor σ α) (p : HandedPacket α) (env : σ) :
    σ × World α :=
  processor.processPacket p.localAddress p.peerAddress p.buffer p.receiveTime env p.world

/-- What the calls for some packets leave, one behind the other. Between two of them the memory
changes as the next packet is made, so each call finds that of its packet. -/
def afterCalls (processor : UdpPacketProcessor σ α) :
    List (HandedPacket α) → σ → World α → σ × World α
  | [], env, w => (env, w)
  | p :: handed, env, _ =>
    afterCalls processor handed (p.call processor env).1 (p.call processor env).2

/-- The socket was asked once, with the state `env`, and left `env'`. -/
def IoHandle.Leaves (handle : IoHandle σ α ε) (localAddress : Instance)
    (packetsDropped : Option UInt32) (env env' : σ) : Prop :=
  ∃ ip, localAddress.ip = some ip ∧
    ((∃ len, env' = (handle.recvmsg len ip.port packetsDropped env).2.2.2) ∨
      ∃ lens, env' = (handle.recvmmsg lens ip.port packetsDropped env).2.2.2)

/-- The state is what the socket and the calls for the packets handed over leave, and so is the
memory, but for the buffers that are destroyed at the end. -/
structure ReadResult.FollowsCalls (r : ReadResult σ α ε) (handle : IoHandle σ α ε)
    (localAddress : Instance) (processor : UdpPacketProcessor σ α) (packetsDropped : Option UInt32)
    (env : σ) : Prop where
  /-- The calls come after that of the socket, and nothing comes after them but destructors. -/
  calls : ∃ env' w', handle.Leaves localAddress packetsDropped env env' ∧
    r.env = (afterCalls processor r.handed env' w').1 ∧
    r.world = r.left.foldl (fun w buffer ↦ buffer.destroy w)
      (afterCalls processor r.handed env' w').2

section

variable {handle : IoHandle σ α ε} {localAddress : Instance} {processor : UdpPacketProcessor σ α}
  {packetsDropped : Option UInt32} {env : σ} {w : World α} {receiveTime : MonotonicTime}

/-- Receiving a message asks the socket once. -/
theorem leaves_of_receiveMessage {maxRxDatagramSize : UInt64} {buffer : OwnedImpl α}
    {r : ReceiveState σ α ε}
    (h : receiveMessage handle localAddress maxRxDatagramSize buffer packetsDropped env w =
      some r) :
    handle.Leaves localAddress packetsDropped env r.env := by
  rw [receiveMessage] at h
  rcases hreserve : buffer.reserveSingleSlice maxRxDatagramSize.toNat false w with
    ⟨reservation, buffer₁, w₁⟩
  rw [hreserve] at h
  obtain ⟨ip, hip, h⟩ := Option.bind_eq_some_iff.1 h
  obtain ⟨⟨o, buffer₂, w₂⟩, -, h⟩ := Option.bind_eq_some_iff.1 h
  refine ⟨ip, hip, .inl ⟨reservation.slice.len, ?_⟩⟩
  dsimp only at h
  split_ifs at h
  · obtain ⟨-, -, rfl⟩ := Option.map_eq_some_iff.1 h
    rfl
  · rw [← Option.some.inj h]

/-- The loop over the segments leaves what its calls leave. -/
theorem afterCalls_of_segmentLoop {info : RecvMsgPerPacketInfo} {gsoSize : UInt64} {fuel : ℕ}
    {buffer buffer' : OwnedImpl α} {handed : List (HandedPacket α)} {env' : σ} {w' : World α}
    (h : segmentLoop processor info gsoSize receiveTime fuel buffer env w =
      some (handed, buffer', env', w')) : afterCalls processor handed env w = (env', w') := by
  induction fuel generalizing buffer handed env w with
  | zero =>
    obtain ⟨-, h⟩ := Option.ite_none_right_eq_some.1 h
    obtain ⟨rfl, -, rfl, rfl⟩ := by simpa only [Option.some.injEq, Prod.mk.injEq] using h
    rfl
  | succ fuel ih =>
    rw [segmentLoop] at h
    split_ifs at h
    · obtain ⟨rfl, -, rfl, rfl⟩ := by simpa only [Option.some.injEq, Prod.mk.injEq] using h
      rfl
    · obtain ⟨⟨sub, rest, w₁⟩, -, h⟩ := Option.bind_eq_some_iff.1 h
      obtain ⟨⟨handed, state⟩, hloop, heq⟩ := Option.map_eq_some_iff.1 h
      obtain ⟨rfl, rfl⟩ := by simpa only [Prod.mk.injEq] using heq
      rw [afterCalls]
      exact ih hloop

/-- The loop over the messages leaves what its calls leave. -/
theorem afterCalls_of_packetsLoop {maxRxDatagramSize : UInt64} {n : ℕ}
    {l : List (BufferAndReservation α × Received α)} {handed : List (HandedPacket α)}
    {left : List (OwnedImpl α)} {env' : σ} {w' : World α}
    (h : packetsLoop processor maxRxDatagramSize receiveTime n l env w =
      some (handed, left, env', w')) : afterCalls processor handed env w = (env', w') := by
  induction n generalizing l handed left env w with
  | zero =>
    rw [packetsLoop] at h
    obtain ⟨rfl, -, rfl, rfl⟩ := by simpa only [Option.some.injEq, Prod.mk.injEq] using h
    rfl
  | succ n ih =>
    match l with
    | [] => cases h
    | (b, received) :: l =>
      rw [packetsLoop] at h
      dsimp only at h
      split_ifs at h
      · -- a truncated message is passed over
        obtain ⟨⟨handed, left, env₁, w₁⟩, hloop, heq⟩ := Option.map_eq_some_iff.1 h
        obtain ⟨rfl, -, rfl, rfl⟩ := by simpa only [Prod.mk.injEq] using heq
        exact ih hloop
      · obtain ⟨⟨buffer, w₁⟩, -, h⟩ := Option.bind_eq_some_iff.1 h
        obtain ⟨⟨handed, left, env₂, w₂⟩, hloop, heq⟩ := Option.map_eq_some_iff.1 h
        obtain ⟨rfl, -, rfl, rfl⟩ := by simpa only [Prod.mk.injEq] using heq
        rw [afterCalls]
        exact ih hloop

/-- A read that ends with what the calls for its packets leave. -/
theorem ReadResult.FollowsCalls.of_calls {result : IoCallUint64Result ε} {dropped : Option UInt32}
    {handed : List (HandedPacket α)} {left : List (OwnedImpl α)} {env₀ env' : σ} {w₀ w' : World α}
    (h : handle.Leaves localAddress packetsDropped env env₀)
    (hcalls : afterCalls processor handed env₀ w₀ = (env', w')) :
    (ReadResult.finish { result, packetsDropped := dropped, handed, left, env := env'
                         world := w' } :
      ReadResult σ α ε).FollowsCalls handle localAddress processor packetsDropped env where
  calls := by
    refine ⟨env₀, w₀, h, ?_, ?_⟩
    · show env' = (afterCalls processor handed env₀ w₀).1
      rw [hcalls]
    · show left.foldl (fun w buffer ↦ buffer.destroy w) w' =
        left.foldl (fun w buffer ↦ buffer.destroy w) (afterCalls processor handed env₀ w₀).2
      rw [hcalls]

/-- A read for which no packet is handed over. -/
theorem ReadResult.FollowsCalls.of_none {result : IoCallUint64Result ε} {dropped : Option UInt32}
    {left : List (OwnedImpl α)} {env' : σ} {w' : World α}
    (h : handle.Leaves localAddress packetsDropped env env') :
    (ReadResult.finish { result, packetsDropped := dropped, left, env := env', world := w' } :
      ReadResult σ α ε).FollowsCalls handle localAddress processor packetsDropped env :=
  .of_calls h (show afterCalls processor [] env' w' = (env', w') from rfl)

/-- A read for which one packet is handed over. -/
theorem ReadResult.FollowsCalls.of_one {result : IoCallUint64Result ε} {dropped : Option UInt32}
    {p : HandedPacket α} {env' : σ} (h : handle.Leaves localAddress packetsDropped env env') :
    (ReadResult.finish { result, packetsDropped := dropped, handed := [p]
                         env := (p.call processor env').1, world := (p.call processor env').2 } :
      ReadResult σ α ε).FollowsCalls handle localAddress processor packetsDropped env :=
  .of_calls h (show afterCalls processor [p] env' p.world = p.call processor env' from rfl)

/-- Reading several messages leaves what its calls leave. -/
theorem followsCalls_of_readMmsg {maxRxDatagramSize : UInt64} {r : ReadResult σ α ε}
    (h : readMmsg handle localAddress processor maxRxDatagramSize receiveTime packetsDropped env w =
      some r) : r.FollowsCalls handle localAddress processor packetsDropped env := by
  rw [readMmsg] at h
  rcases hbuffers : makeBuffers maxRxDatagramSize numDatagramsPerReceive.toNat w with ⟨bs, w₁⟩
  rw [hbuffers] at h
  obtain ⟨ip, hip, h⟩ := Option.bind_eq_some_iff.1 h
  obtain ⟨⟨buffers, w'⟩, -, h⟩ := Option.bind_eq_some_iff.1 h
  have hleaves : handle.Leaves localAddress packetsDropped env
      (handle.recvmmsg (bs.map (·.reservation.length)) ip.port packetsDropped env).2.2.2 :=
    ⟨ip, hip, .inr ⟨_, rfl⟩⟩
  dsimp only at h
  split_ifs at h
  · rw [← Option.some.inj h]
    exact .of_none hleaves
  · obtain ⟨⟨handed, left, env', w''⟩, hloop, rfl⟩ := Option.map_eq_some_iff.1 h
    exact .of_calls hleaves (afterCalls_of_packetsLoop hloop)

/-- **A read leaves what its calls leave**: what is recorded of it are the calls of the
processor. -/
theorem followsCalls_of_readFromSocket {useGro : Bool} {r : ReadResult σ α ε}
    (h : readFromSocket handle localAddress processor receiveTime useGro packetsDropped env w =
      some r) : r.FollowsCalls handle localAddress processor packetsDropped env := by
  rw [readFromSocket] at h
  split_ifs at h
  · obtain ⟨state, hreceive, h⟩ := Option.bind_eq_some_iff.1 h
    have hleaves := leaves_of_receiveMessage hreceive
    dsimp only at h
    split_ifs at h
    · rw [← Option.some.inj h]
      exact .of_none hleaves
    · rw [← Option.some.inj h]
      exact .of_one hleaves
    · obtain ⟨⟨handed, buffer, env', w'⟩, hloop, rfl⟩ := Option.map_eq_some_iff.1 h
      exact .of_calls hleaves (afterCalls_of_segmentLoop hloop)
  · exact followsCalls_of_readMmsg h
  · obtain ⟨state, hreceive, h⟩ := Option.bind_eq_some_iff.1 h
    have hleaves := leaves_of_receiveMessage hreceive
    dsimp only at h
    split_ifs at h
    · rw [← Option.some.inj h]
      exact .of_none hleaves
    · rw [← Option.some.inj h]
      exact .of_one hleaves

end

end TcpServer.Network
