import TcpServer.Network.UdpSegments
import Mathlib.Algebra.Ring.Nat
import Mathlib.Data.Nat.ModEq

/-!
# Reading in a loop

`readPacketsFromSocket` reads until a read fails or as many reads were made as packets are expected.
After every read it reports how many packets the kernel has dropped since the read before. The
kernel counts them in a `uint32_t`, which may wrap, and so may the difference.

The loop counts down from at least one, so it ends if every read returns, and it returns the error
of its last read. How it ends, how many reads there are, and that the reports add up to what the
counter has moved on (modulo its range) is one structure (`ReadsAccounted`) that is kept from the
last read backwards. Another one (`ReadChain`) says that what is recorded are the calls that were
made.
-/

namespace TcpServer.Network

open TcpServer.Buffer

variable {σ α ε : Type*}

/-- `MAX_NUM_PACKETS_PER_EVENT_LOOP`. -/
def maxNumPacketsPerEventLoop : UInt64 := 6000

/-- What is returned, and what was done: the results of the reads, and the arguments of
`onDatagramsDropped`. -/
structure PacketsResult (σ α ε : Type*) where
  /-- What `readPacketsFromSocket` returns: the error of the last read, if it has one. -/
  err : Option ε
  /-- The results of the reads, in their order. -/
  reads : List (IoCallUint64Result ε)
  /-- The arguments of the calls of `onDatagramsDropped`, in their order. -/
  deltas : List UInt32 := []
  /-- The counter after the last read. -/
  packetsDropped : UInt32
  /-- The state of the socket, the processor and the clock. -/
  env : σ
  /-- The memory of the buffers. -/
  world : World α

/-- The packets dropped since the counter was `oldPacketsDropped`. -/
def dropDelta (oldPacketsDropped packetsDropped : UInt32) : UInt32 :=
  if packetsDropped > oldPacketsDropped then packetsDropped - oldPacketsDropped
  else packetsDropped + (0xffffffff - oldPacketsDropped) + 1

/-- The calls of `onDatagramsDropped` after one read. -/
def reportDropped (processor : UdpPacketProcessor σ α) (oldPacketsDropped packetsDropped : UInt32)
    (env : σ) (w : World α) : List UInt32 × σ × World α :=
  if packetsDropped ≠ oldPacketsDropped then
    let delta := dropDelta oldPacketsDropped packetsDropped
    ([delta], processor.onDatagramsDropped delta env w)
  else ([], env, w)

/-- The `do` loop. The counter is that of the reads that are left. -/
def readLoop (handle : IoHandle σ α ε) (localAddress : Instance)
    (processor : UdpPacketProcessor σ α)
    (monotonicTime : σ → MonotonicTime × σ) (useGro : Bool) :
    ℕ → UInt64 → UInt32 → σ → World α → Option (PacketsResult σ α ε)
  | 0, _, _, _, _ => none
  | fuel + 1, numReads, oldPacketsDropped, env, w =>
    let (receiveTime, env) := monotonicTime env
    (readFromSocket handle localAddress processor receiveTime useGro (some oldPacketsDropped) env
      w).bind
      fun r ↦
        let packetsDropped := r.packetsDropped.getD oldPacketsDropped
        if !r.result.ok then
          some { err := r.result.err, reads := [r.result], packetsDropped, env := r.env,
                 world := r.world }
        else
          let (deltas, env, world) :=
            reportDropped processor oldPacketsDropped packetsDropped r.env r.world
          let numReads := numReads - 1
          if numReads = 0 then
            some { err := r.result.err, reads := [r.result], deltas, packetsDropped, env, world }
          else
            (readLoop handle localAddress processor monotonicTime useGro fuel numReads
              packetsDropped env world).map fun rest ↦
              { rest with reads := r.result :: rest.reads, deltas := deltas ++ rest.deltas }

/-- `Utility::readPacketsFromSocket`. -/
def readPacketsFromSocket (handle : IoHandle σ α ε) (localAddress : Instance)
    (processor : UdpPacketProcessor σ α) (monotonicTime : σ → MonotonicTime × σ) (preferGro : Bool)
    (packetsDropped : UInt32) (env : σ) (w : World α) : Option (PacketsResult σ α ε) :=
  let numPacketsToRead :=
    min maxNumPacketsPerEventLoop (processor.numPacketsExpectedPerEventLoop env)
  let useGro := preferGro && handle.supportsUdpGro
  let numReads :=
    if useGro then numPacketsToRead / numDatagramsPerReceive
    else if handle.supportsMmsg then numPacketsToRead / numDatagramsPerReceive
    else numPacketsToRead
  -- at least one read
  let numReads := max 1 numReads
  readLoop handle localAddress processor monotonicTime useGro numReads.toNat numReads packetsDropped
    env w

/-! ### The difference of two counters

The counter of the kernel only goes forward, so if it has a smaller number than before it has
wrapped, and the source adds the two parts of the way. That is the difference in `uint32_t` in both
cases.
-/

/-- The difference of a counter that has wrapped, `top` being the greatest counter. -/
theorem add_wrapped {top : UInt32} (htop : top + 1 = 0) (old new : UInt32) :
    old + (new + (top - old) + 1) = new :=
  calc old + (new + (top - old) + 1)
    _ = new + ((top - old) + old + 1) := by ac_rfl
    _ = new := by rw [UInt32.sub_add_cancel, htop, UInt32.add_zero]

/-- The difference is what has to be added to the old counter, wrapped or not. -/
theorem add_dropDelta (old new : UInt32) : old + dropDelta old new = new := by
  rw [dropDelta]
  split_ifs
  · rw [UInt32.add_comm, UInt32.sub_add_cancel]
  · exact add_wrapped (by decide) old new

/-- A counter that has moved has a difference that is not zero. -/
theorem dropDelta_ne_zero {old new : UInt32} (h : new ≠ old) : dropDelta old new ≠ 0 := by
  intro hzero
  have hadd := add_dropDelta old new
  rw [hzero, UInt32.add_zero] at hadd
  exact h hadd.symm

/-- The difference is what the counter has moved on, modulo its range. -/
theorem toNat_add_dropDelta (old new : UInt32) :
    old.toNat + (dropDelta old new).toNat ≡ new.toNat [MOD 2 ^ 32] := by
  have hadd := congrArg UInt32.toNat (add_dropDelta old new)
  rw [UInt32.toNat_add] at hadd
  rw [Nat.ModEq, hadd, Nat.mod_eq_of_lt new.toNat_lt]

/-! ### One read

A read that fails ends the loop and reports nothing. After a read that succeeds the difference is
reported if the counter has moved, and the loop goes on if it may.
-/

/-- What is reported after one read. -/
theorem reportDropped_spec (processor : UdpPacketProcessor σ α) (old new : UInt32) (env : σ)
    (w : World α) :
    0 ∉ (reportDropped processor old new env w).1 ∧
      old.toNat + ((reportDropped processor old new env w).1.map UInt32.toNat).sum ≡ new.toNat
        [MOD 2 ^ 32] := by
  rw [reportDropped]
  split_ifs with hne
  · refine ⟨?_, ?_⟩
    · rw [List.mem_singleton]
      exact (dropDelta_ne_zero hne).symm
    · rw [List.map_singleton, List.sum_singleton]
      exact toNat_add_dropDelta old new
  · rw [of_not_not hne]
    exact ⟨List.not_mem_nil, rfl⟩

/-- What a loop of at most `bound` reads leaves, the counter being `initial` before it. -/
structure ReadsAccounted (bound : ℕ) (initial : UInt32) (r : PacketsResult σ α ε) : Prop where
  /-- There is at least one read. -/
  one_le : 1 ≤ r.reads.length
  /-- There are no more reads than are allowed. -/
  le_bound : r.reads.length ≤ bound
  /-- All reads but the last one succeed. -/
  ok_of_dropLast : ∀ result ∈ r.reads.dropLast, result.ok = true
  /-- The error that is returned is that of the last read. -/
  err_eq : ∃ result, r.reads.getLast? = some result ∧ r.err = result.err
  /-- Without an error there are as many reads as are allowed. -/
  eq_bound : r.err = none → r.reads.length = bound
  /-- Nothing is reported for a counter that has not moved. -/
  zero_notMem : 0 ∉ r.deltas
  /-- What is reported is what the counter has moved on, modulo its range. -/
  sum_deltas : initial.toNat + (r.deltas.map UInt32.toNat).sum ≡ r.packetsDropped.toNat [MOD 2 ^ 32]

/-- A read that fails is the last one. -/
theorem readsAccounted_of_failed {bound : ℕ} (hbound : 1 ≤ bound) {initial : UInt32}
    {result : IoCallUint64Result ε} (hfailed : result.ok = false) (env : σ) (w : World α) :
    ReadsAccounted bound initial
      ({ err := result.err, reads := [result], packetsDropped := initial, env, world := w } :
        PacketsResult σ α ε) where
  one_le := Nat.le_refl 1
  le_bound := hbound
  ok_of_dropLast _ hmem := absurd hmem List.not_mem_nil
  err_eq := ⟨result, rfl, rfl⟩
  eq_bound herr := by
    have hok : result.ok = true := Option.isNone_iff_eq_none.2 herr
    exact absurd (hok.symm.trans hfailed) Bool.noConfusion
  zero_notMem := List.not_mem_nil
  sum_deltas := rfl

/-- A read that succeeds may be the last one. -/
theorem readsAccounted_of_last {initial packetsDropped : UInt32} {result : IoCallUint64Result ε}
    {deltas : List UInt32} (hzero : 0 ∉ deltas)
    (hsum : initial.toNat + (deltas.map UInt32.toNat).sum ≡ packetsDropped.toNat [MOD 2 ^ 32])
    (env : σ) (w : World α) :
    ReadsAccounted 1 initial
      ({ err := result.err, reads := [result], deltas, packetsDropped, env, world := w } :
        PacketsResult σ α ε) where
  one_le := Nat.le_refl 1
  le_bound := Nat.le_refl 1
  ok_of_dropLast _ hmem := absurd hmem List.not_mem_nil
  err_eq := ⟨result, rfl, rfl⟩
  eq_bound _ := rfl
  zero_notMem := hzero
  sum_deltas := hsum

/-- Or more reads follow. -/
theorem ReadsAccounted.cons {bound : ℕ} {initial packetsDropped : UInt32}
    {result : IoCallUint64Result ε} {deltas : List UInt32} {rest : PacketsResult σ α ε}
    (h : ReadsAccounted bound packetsDropped rest) (hok : result.ok = true) (hzero : 0 ∉ deltas)
    (hsum : initial.toNat + (deltas.map UInt32.toNat).sum ≡ packetsDropped.toNat [MOD 2 ^ 32]) :
    ReadsAccounted (bound + 1) initial
      { rest with reads := result :: rest.reads, deltas := deltas ++ rest.deltas } := by
  obtain ⟨last, hlast, herr⟩ := h.err_eq
  have hne : rest.reads ≠ [] := by
    rintro hnil
    rw [hnil] at hlast
    exact absurd hlast.symm (Option.some_ne_none _)
  refine ⟨Nat.le_add_left 1 _, Nat.succ_le_succ h.le_bound, ?_, ⟨last, ?_, herr⟩, ?_, ?_, ?_⟩
  · show ∀ x ∈ (result :: rest.reads).dropLast, x.ok = true
    rw [List.dropLast_cons_of_ne_nil hne, List.forall_mem_cons]
    exact ⟨hok, h.ok_of_dropLast⟩
  · show (result :: rest.reads).getLast? = some last
    rw [List.getLast?_cons, hlast]
    rfl
  · intro hnone
    exact congrArg (· + 1) (h.eq_bound hnone)
  · show 0 ∉ deltas ++ rest.deltas
    rw [List.mem_append, not_or]
    exact ⟨hzero, h.zero_notMem⟩
  · show initial.toNat + ((deltas ++ rest.deltas).map UInt32.toNat).sum ≡ _ [MOD 2 ^ 32]
    rw [List.map_append, List.sum_append, ← Nat.add_assoc]
    exact (hsum.add_right _).trans h.sum_deltas

/-! ### What the reads leave -/

/-- A read, and the arguments of the calls of `onDatagramsDropped` after it. -/
structure ReadAndReport (σ α ε : Type*) where
  /-- What the read has left. -/
  read : ReadResult σ α ε
  /-- What was reported after it. -/
  deltas : List UInt32

/-- What the calls of `onDatagramsDropped` leave after a read. -/
def ReadAndReport.after (processor : UdpPacketProcessor σ α) (r : ReadAndReport σ α ε) :
    σ × World α :=
  r.deltas.foldl (fun state delta ↦ processor.onDatagramsDropped delta state.1 state.2)
    (r.read.env, r.read.world)

/-- Some reads, each of which begins with the clock and what the calls after the read before have
left. -/
inductive ReadChain (handle : IoHandle σ α ε) (localAddress : Instance)
    (processor : UdpPacketProcessor σ α)
    (monotonicTime : σ → MonotonicTime × σ) (useGro : Bool) :
    UInt32 → σ → World α → List (ReadAndReport σ α ε) → σ → World α → Prop
  | nil (dropped : UInt32) (env : σ) (w : World α) :
    ReadChain handle localAddress processor monotonicTime useGro dropped env w [] env w
  | cons {dropped : UInt32} {env env' : σ} {w w' : World α} {r : ReadAndReport σ α ε}
    {reads : List (ReadAndReport σ α ε)}
    (hread : readFromSocket handle localAddress processor (monotonicTime env).1 useGro
      (some dropped)
      (monotonicTime env).2 w = some r.read)
    (hrest : ReadChain handle localAddress processor monotonicTime useGro
      (r.read.packetsDropped.getD dropped) (r.after processor).1 (r.after processor).2 reads env'
        w') :
    ReadChain handle localAddress processor monotonicTime useGro dropped env w (r :: reads) env' w'

/-- What a loop of reads returns says of each of its reads what came of it and what was reported,
and the state is what reads and reports leave, one behind the other. -/
def PacketsResult.FollowsReads (r : PacketsResult σ α ε) (handle : IoHandle σ α ε)
    (localAddress : Instance) (processor : UdpPacketProcessor σ α)
    (monotonicTime : σ → MonotonicTime × σ) (useGro : Bool) (initial : UInt32) (env : σ)
    (w : World α) : Prop :=
  ∃ reads : List (ReadAndReport σ α ε),
    ReadChain handle localAddress processor monotonicTime useGro initial env w reads r.env r.world ∧
      r.reads = reads.map (·.read.result) ∧ r.deltas = reads.flatMap (·.deltas)

/-- The reports are calls, one behind the other. -/
theorem reportDropped_eq (processor : UdpPacketProcessor σ α) (old new : UInt32) (env : σ)
    (w : World α) :
    (reportDropped processor old new env w).2 = (reportDropped processor old new env w).1.foldl
      (fun state delta ↦ processor.onDatagramsDropped delta state.1 state.2) (env, w) := by
  rw [reportDropped]
  split_ifs <;> rfl

/-- Whatever a loop of reads returns, its reads and reports have left it. -/
theorem followsReads_of_readLoop {handle : IoHandle σ α ε} {localAddress : Instance}
    {processor : UdpPacketProcessor σ α} {monotonicTime : σ → MonotonicTime × σ} {useGro : Bool}
    {fuel : ℕ} {numReads : UInt64} {initial : UInt32} {env : σ} {w : World α}
    {r : PacketsResult σ α ε}
    (h : readLoop handle localAddress processor monotonicTime useGro fuel numReads initial env w =
      some r) :
    r.FollowsReads handle localAddress processor monotonicTime useGro initial env w := by
  induction fuel generalizing numReads initial env w r with
  | zero => cases h
  | succ fuel ih =>
    rw [readLoop] at h
    obtain ⟨read, hread, h⟩ := Option.bind_eq_some_iff.1 h
    have hafter := reportDropped_eq processor initial (read.packetsDropped.getD initial) read.env
      read.world
    rcases hreport : reportDropped processor initial (read.packetsDropped.getD initial) read.env
      read.world with ⟨deltas, env', w'⟩
    rw [hreport] at hafter
    have hstate : ({ read, deltas } : ReadAndReport σ α ε).after processor = (env', w') :=
      hafter.symm
    dsimp only at h
    rw [hreport] at h
    split_ifs at h
    · -- a read that fails is not followed by a report
      rw [← Option.some.inj h]
      exact ⟨[{ read, deltas := [] }], .cons hread (.nil _ _ _), rfl, rfl⟩
    · rw [← Option.some.inj h]
      refine ⟨[{ read, deltas }], .cons hread ?_, rfl, (List.append_nil _).symm⟩
      rw [hstate]
      exact .nil _ _ _
    · obtain ⟨rest, hrest, rfl⟩ := Option.map_eq_some_iff.1 h
      obtain ⟨reads, hreads, hresults, hdeltas⟩ := ih hrest
      refine ⟨{ read, deltas } :: reads, .cons hread ?_, ?_, ?_⟩
      · rw [hstate]
        exact hreads
      · exact congrArg (read.result :: ·) hresults
      · exact congrArg (deltas ++ ·) hdeltas

/-! ### The loop -/

/-- Every read returns, and one that fails leaves the counter as it is. -/
structure ReadsReturn (handle : IoHandle σ α ε) (localAddress : Instance)
    (processor : UdpPacketProcessor σ α) (useGro : Bool) : Prop where
  /-- Every read returns. -/
  returns : ∀ (receiveTime : MonotonicTime) (dropped : UInt32) (env : σ) (w : World α),
    (readFromSocket handle localAddress processor receiveTime useGro (some dropped) env w).isSome
  /-- A read that fails leaves the counter as it is. -/
  failed : ∀ (receiveTime : MonotonicTime) (dropped : UInt32) (env : σ) (w : World α)
    (r : ReadResult σ α ε),
    readFromSocket handle localAddress processor receiveTime useGro (some dropped) env w = some r →
      r.result.ok = false → r.packetsDropped = some dropped

variable {handle : IoHandle σ α ε} {localAddress : Instance} {processor : UdpPacketProcessor σ α}

/-- The countdown ends at zero, which it does not start at. -/
theorem exists_readLoop {useGro : Bool} (h : ReadsReturn handle localAddress processor useGro)
    (monotonicTime : σ → MonotonicTime × σ) {fuel : ℕ} {numReads : UInt64} (hne : numReads ≠ 0)
    (hfuel : numReads.toNat ≤ fuel) (initial : UInt32) (env : σ) (w : World α) :
    ∃ r, readLoop handle localAddress processor monotonicTime useGro fuel numReads initial env w =
        some r ∧ ReadsAccounted numReads.toNat initial r := by
  have hpos : 0 < numReads.toNat := toNat_pos_uint64 hne
  induction fuel generalizing numReads initial env w with
  | zero => omega
  | succ fuel ih =>
    obtain ⟨r, hread⟩ := Option.isSome_iff_exists.1
      (h.returns (monotonicTime env).1 initial (monotonicTime env).2 w)
    rw [readLoop]
    dsimp only
    rw [hread, Option.bind_some]
    cases hok : r.result.ok with
    | false =>
      have hdropped : r.packetsDropped.getD initial = initial := by
        rw [h.failed _ _ _ _ r hread hok, Option.getD_some]
      rw [hdropped]
      exact ⟨_, rfl, readsAccounted_of_failed hpos hok r.env r.world⟩
    | true =>
      obtain ⟨hzero, hsum⟩ := reportDropped_spec processor initial (r.packetsDropped.getD initial)
        r.env r.world
      have hcount : (numReads - 1).toNat = numReads.toNat - 1 :=
        UInt64.toNat_sub_of_le _ _ (UInt64.le_iff_toNat_le.2 hpos)
      show ∃ r', (if numReads - 1 = 0 then _ else _) = some r' ∧ _
      split_ifs with hlast
      · have hone : numReads.toNat = 1 := by
          rw [hlast, UInt64.toNat_zero] at hcount
          omega
        rw [hone]
        exact ⟨_, rfl, readsAccounted_of_last hzero hsum _ _⟩
      · have hpos' : 0 < (numReads - 1).toNat := toNat_pos_uint64 hlast
        obtain ⟨rest, hloop, hrest⟩ := ih hlast (by omega) (r.packetsDropped.getD initial) _ _ hpos'
        have hsucc : (numReads - 1).toNat + 1 = numReads.toNat := by omega
        rw [hloop, ← hsucc]
        exact ⟨_, rfl, hrest.cons hok hzero hsum⟩

/-! ### Sockets that keep to the interface

Whether every read returns depends on what is not under the source. It does if the socket keeps to
what its interface says, the memory for one read does not wrap, and the local address is an IP
address, since its port is asked for.
-/

/-- A socket writes to the slices it is given and not behind them, it receives no more messages than
there are slices, and it leaves the counter alone when it fails. -/
structure IoHandle.Keeps (handle : IoHandle σ α ε) : Prop where
  /-- `recvmsg` writes no more bytes than the slice has. -/
  within_slice : ∀ len selfPort dropped env,
    (handle.recvmsg len selfPort dropped env).2.1.bytes.length ≤ len
  /-- `recvmmsg` writes no more bytes to a slice than it has. -/
  within_slices : ∀ lens selfPort dropped env i, ∀ len ∈ lens[i]?,
    ((handle.recvmmsg lens selfPort dropped env).2.1 i).bytes.length ≤ len
  /-- `recvmmsg` receives no more messages than there are slices. -/
  returnValue_le : ∀ lens selfPort dropped env,
    (handle.recvmmsg lens selfPort dropped env).1.ok = true →
      (handle.recvmmsg lens selfPort dropped env).1.returnValue.toNat ≤ lens.length
  /-- `recvmsg` leaves the counter alone when it fails. -/
  recvmsg_failed : ∀ len selfPort dropped env,
    (handle.recvmsg len selfPort (some dropped) env).1.ok = false →
      (handle.recvmsg len selfPort (some dropped) env).2.2.1 = dropped
  /-- So does `recvmmsg`. -/
  recvmmsg_failed : ∀ lens selfPort dropped env,
    (handle.recvmmsg lens selfPort (some dropped) env).1.ok = false →
      (handle.recvmmsg lens selfPort (some dropped) env).2.2.1 = dropped

/-- The size of the memory for one read does not wrap. -/
def UdpPacketProcessor.Bounded (processor : UdpPacketProcessor σ α) : Prop :=
  ∀ env, 16 * (processor.maxDatagramSize env).toNat ≤ maxSliceSize

/-- A message can be received, and what is left of the counter is what the socket wrote. -/
theorem IoHandle.Keeps.exists_receiveMessage (h : handle.Keeps) {ip : Ip}
    (hip : localAddress.ip = some ip) {maxRxDatagramSize : UInt64}
    (hmax : maxRxDatagramSize.toNat ≤ maxSliceSize) (dropped : UInt32) (env : σ) (w : World α) :
    ∃ r c, receiveMessage handle localAddress maxRxDatagramSize {} (some dropped) env w = some r ∧
      (r.result.ok = false → r.packetsDropped = some dropped) ∧ r.buffer.Holds r.world c ∧
      r.buffer.OnHeap ∧ c.length ≤ maxSliceSize := by
  have hslice := h.within_slice maxRxDatagramSize.toNat ip.port (some dropped) env
  have hfailed := h.recvmsg_failed maxRxDatagramSize.toNat ip.port dropped env
  rcases hrecvmsg : handle.recvmsg maxRxDatagramSize.toNat ip.port (some dropped) env with
    ⟨result, received, dropped', env'⟩
  rw [hrecvmsg] at hslice hfailed
  have hle : (min maxRxDatagramSize result.returnValue).toNat ≤ maxRxDatagramSize.toNat :=
    toNat_min_uint64_le_left _ _
  obtain ⟨r, hreceive, hresult, -, hdropped, hheap, c, hholds, hnil, hlen⟩ :=
    Network.exists_receiveMessage hip hrecvmsg hslice (fun _ ↦ hle.trans (le_sliceSize hmax)) w
  refine ⟨r, c, hreceive, fun hfalse ↦ ?_, hholds, hheap, ?_⟩
  · rw [hresult] at hfalse
    have hsame : dropped' = dropped := hfailed hfalse
    rw [hdropped, hsame]
    rfl
  · cases hok : r.result.ok with
    | false =>
      rw [hnil hok]
      exact Nat.zero_le _
    | true =>
      have hclen := (hlen hok).1
      rw [hresult] at hclen
      omega

/-- A buffer with a reservation of `n` bytes that has not been written to. -/
structure BufferAndReservation.Writable (n : ℕ) (b : BufferAndReservation α) : Prop where
  /-- The buffer is empty. -/
  buffer : b.buffer = {}
  /-- The reservation has the length that was asked for. -/
  length : b.reservation.length = n
  /-- A message that fits can be written to it, which changes no other memory. -/
  write : ∀ (bytes : List α) (w : World α), bytes.length ≤ n →
    ∃ o, writeReceived b.reservation {} bytes w = some (o, {}, w) ∧ Filled n bytes o

/-- As many buffers as are asked for have a reservation to write to. -/
theorem exists_makeBuffers (maxRxDatagramSize : UInt64) (k : ℕ) (w : World α) :
    ∃ bs w', makeBuffers maxRxDatagramSize k w = (bs, w') ∧ bs.length = k ∧
      ∀ b ∈ bs, b.Writable maxRxDatagramSize.toNat := by
  induction k generalizing w with
  | zero => exact ⟨[], w, rfl, rfl, fun b hb ↦ absurd hb List.not_mem_nil⟩
  | succ k ih =>
    obtain ⟨r, w₁, hreserve, hlen, hwrite⟩ := exists_reserve maxRxDatagramSize.toNat true w
    obtain ⟨bs, w', hbuffers, hlength, hbs⟩ := ih w₁
    refine ⟨{ buffer := {}, reservation := .single r } :: bs, w', ?_, congrArg (· + 1) hlength, ?_⟩
    · rw [makeBuffers, hreserve]
      dsimp only
      rw [hbuffers]
    · rw [List.forall_mem_cons]
      exact ⟨⟨rfl, hlen, hwrite⟩, hbs⟩

/-- All messages can be written, each to its own buffer. -/
theorem exists_writeEach {n : ℕ} {l : List (BufferAndReservation α × Received α)}
    (h : ∀ x ∈ l, x.1.Writable n ∧ x.2.bytes.length ≤ n) (w : World α) :
    ∃ l', writeEach l w = some (l', w) ∧ l'.length = l.length ∧
      ∀ x ∈ l', x.1.buffer = {} ∧ Filled n x.2.bytes x.1.reservation := by
  induction l with
  | nil => exact ⟨[], rfl, rfl, fun x hx ↦ absurd hx List.not_mem_nil⟩
  | cons x l ih =>
    rw [List.forall_mem_cons] at h
    obtain ⟨⟨hx, hbytes⟩, hl⟩ := h
    obtain ⟨l', heach, hlength, hl'⟩ := ih hl
    obtain ⟨o, hwrite, hfilled⟩ := hx.write x.2.bytes w hbytes
    refine ⟨({ buffer := {}, reservation := o }, x.2) :: l', ?_, congrArg (· + 1) hlength, ?_⟩
    · rw [writeEach, hx.buffer, hwrite, Option.bind_some]
      dsimp only
      rw [heach]
      rfl
    · rw [List.forall_mem_cons]
      exact ⟨⟨rfl, hfilled⟩, hl'⟩

theorem packetsLoop_isSome (processor : UdpPacketProcessor σ α) {maxRxDatagramSize : UInt64}
    (hmax : maxRxDatagramSize.toNat ≤ maxSliceSize) (receiveTime : MonotonicTime) {k : ℕ}
    {l : List (BufferAndReservation α × Received α)} (hk : k ≤ l.length)
    (hl : ∀ x ∈ l, x.1.buffer = {} ∧ Filled maxRxDatagramSize.toNat x.2.bytes x.1.reservation)
    (env : σ) (w : World α) :
    (packetsLoop processor maxRxDatagramSize receiveTime k l env w).isSome := by
  induction k generalizing l env w with
  | zero => rfl
  | succ k ih =>
    cases l with
    | nil => exact absurd hk (Nat.not_succ_le_zero k)
    | cons x l =>
      rw [List.forall_mem_cons] at hl
      obtain ⟨⟨hbuffer, hfilled⟩, hl⟩ := hl
      have hk : k ≤ l.length := Nat.le_of_succ_le_succ hk
      rw [packetsLoop]
      dsimp only
      split_ifs with htruncated
      · rw [Option.isSome_map]
        exact ih hk hl env w
      · have hle : (min maxRxDatagramSize x.2.info.msgLen.toUInt64).toNat ≤
            maxRxDatagramSize.toNat := toNat_min_uint64_le_left _ _
        obtain ⟨b, w', -, hcommit, -⟩ := hfilled.commit _ hle (hle.trans (le_sliceSize hmax)) w
        rw [hbuffer, hcommit, Option.bind_some, Option.isSome_map]
        exact ih hk hl _ _

/-- A read with `recvmmsg` returns. -/
theorem IoHandle.Keeps.exists_readMmsg (h : handle.Keeps) {ip : Ip}
    (hip : localAddress.ip = some ip) {maxRxDatagramSize : UInt64}
    (hmax : maxRxDatagramSize.toNat ≤ maxSliceSize) (receiveTime : MonotonicTime) (dropped : UInt32)
    (env : σ) (w : World α) :
    ∃ r, readMmsg handle localAddress processor maxRxDatagramSize receiveTime (some dropped) env w =
        some r ∧ (r.result.ok = false → r.packetsDropped = some dropped) := by
  obtain ⟨bs, w₁, hbuffers, hlength, hbs⟩ :=
    exists_makeBuffers maxRxDatagramSize numDatagramsPerReceive.toNat w
  have hslices := h.within_slices (bs.map (·.reservation.length)) ip.port (some dropped) env
  have hreturn := h.returnValue_le (bs.map (·.reservation.length)) ip.port (some dropped) env
  have hfailed := h.recvmmsg_failed (bs.map (·.reservation.length)) ip.port dropped env
  rcases hrecvmmsg : handle.recvmmsg (bs.map (·.reservation.length)) ip.port (some dropped) env with
    ⟨result, received, dropped', env'⟩
  rw [hrecvmmsg] at hslices hreturn hfailed
  have hwritable : ∀ x ∈ bs.mapIdx fun i b ↦ (b, received i),
      x.1.Writable maxRxDatagramSize.toNat ∧ x.2.bytes.length ≤ maxRxDatagramSize.toNat := by
    intro x hx
    obtain ⟨i, hi, rfl⟩ := List.mem_mapIdx.1 hx
    have hb := hbs bs[i] (List.getElem_mem hi)
    refine ⟨hb, hslices i maxRxDatagramSize.toNat ?_⟩
    rw [List.getElem?_map, List.getElem?_eq_getElem hi, Option.map_some, hb.length]
    exact Option.mem_some_self _
  obtain ⟨l, heach, hlen, hl⟩ := exists_writeEach hwritable w₁
  rw [readMmsg, hbuffers]
  show ∃ r, localAddress.ip.bind _ = some r ∧ _
  rw [hip, Option.bind_some, hrecvmmsg]
  show ∃ r, (writeEach (bs.mapIdx fun i b ↦ (b, received i)) w₁).bind _ = some r ∧ _
  rw [heach, Option.bind_some]
  have hcounter (hok : result.ok = false) : (some dropped).map (fun _ ↦ dropped') =
      some dropped := by
    have hsame : dropped' = dropped := hfailed hok
    rw [hsame]
    rfl
  cases hok : result.ok with
  | false => exact ⟨_, rfl, hcounter⟩
  | true =>
    have hcount : result.returnValue.toNat ≤ l.length := by
      rw [hlen, List.length_mapIdx, ← List.length_map (·.reservation.length)]
      exact hreturn hok
    obtain ⟨⟨handed, left, env'', w''⟩, hloop⟩ := Option.isSome_iff_exists.1
      (packetsLoop_isSome processor hmax receiveTime hcount hl env' w₁)
    show ∃ r, (packetsLoop processor maxRxDatagramSize receiveTime result.returnValue.toNat l env'
      w₁).map _ = some r ∧ _
    rw [hloop]
    exact ⟨_, rfl, hcounter⟩

/-- A read of such a socket returns. -/
theorem IoHandle.Keeps.exists_readFromSocket (h : handle.Keeps) (hprocessor : processor.Bounded)
    {ip : Ip} (hip : localAddress.ip = some ip) (receiveTime : MonotonicTime) (useGro : Bool)
    (dropped : UInt32) (env : σ) (w : World α) :
    ∃ r, readFromSocket handle localAddress processor receiveTime useGro (some dropped) env w =
        some r ∧ (r.result.ok = false → r.packetsDropped = some dropped) := by
  have hmax := hprocessor env
  have hsize : (processor.maxDatagramSize env).toNat ≤ maxSliceSize := by omega
  rw [readFromSocket]
  split_ifs with hgro hmmsg
  · have hgro : (numDatagramsPerReceive * processor.maxDatagramSize env).toNat ≤ maxSliceSize := by
      rw [UInt64.toNat_mul]
      exact (Nat.mod_le _ _).trans hmax
    obtain ⟨⟨result, info, dropped', buffer, env', w'⟩, c, hreceive, hfailed, hholds, hheap, hc⟩ :=
      h.exists_receiveMessage hip hgro dropped env w
    dsimp only at hfailed hholds hheap
    dsimp only
    rw [hreceive, Option.bind_some]
    dsimp only
    split_ifs with hstop hgso
    · exact ⟨_, rfl, hfailed⟩
    · exact ⟨_, rfl, hfailed⟩
    · have hlength : buffer.length.toNat = c.length :=
        hholds.toNat_length (by rw [maxSliceSize] at hc; omega)
      obtain ⟨handed, buffer', env'', w'', hloop, -⟩ :=
        exists_segmentLoop processor info hgso receiveTime hholds hheap hc hlength.ge env'
      rw [hloop]
      exact ⟨_, rfl, hfailed⟩
  · exact h.exists_readMmsg hip hsize receiveTime dropped env w
  · obtain ⟨⟨result, info, dropped', buffer, env', w'⟩, c, hreceive, hfailed, -⟩ :=
      h.exists_receiveMessage hip hsize dropped env w
    dsimp only at hfailed
    dsimp only
    rw [hreceive, Option.bind_some]
    dsimp only
    split_ifs with hstop
    · exact ⟨_, rfl, hfailed⟩
    · exact ⟨_, rfl, hfailed⟩

/-- All reads of such a socket return. -/
theorem IoHandle.Keeps.readsReturn (h : handle.Keeps) (hprocessor : processor.Bounded)
    {ip : Ip} (hip : localAddress.ip = some ip) (useGro : Bool) :
    ReadsReturn handle localAddress processor useGro := by
  constructor
  · intro receiveTime dropped env w
    obtain ⟨r, hread, -⟩ :=
      h.exists_readFromSocket hprocessor hip receiveTime useGro dropped env w
    rw [hread]
    rfl
  · intro receiveTime dropped env w r hread hok
    obtain ⟨r', hread', hfailed⟩ :=
      h.exists_readFromSocket hprocessor hip receiveTime useGro dropped env w
    obtain rfl : r' = r := Option.some.inj (hread'.symm.trans hread)
    exact hfailed hok

/-! ### The call

The number of reads is the number of packets that the processor expects, capped at six thousand, and
divided by sixteen if a read can return as many; but at least one read is made.
-/

/-- As many reads as packets are expected, or a sixteenth of it if one read can return sixteen;
never less than one. -/
def readsAllowed (handle : IoHandle σ α ε) (preferGro : Bool) (expected : ℕ) : ℕ :=
  max 1 (min 6000 expected /
    (if (preferGro && handle.supportsUdpGro) || handle.supportsMmsg then 16 else 1))

/-- **Reading is bounded and accounts for the packets dropped.** What is recorded of the reads and
the reports are the calls that were made: the call leaves what they leave. -/
theorem reads_bounded_and_accounted (preferGro : Bool)
    (h : ReadsReturn handle localAddress processor (preferGro && handle.supportsUdpGro))
    (monotonicTime : σ → MonotonicTime × σ) (packetsDropped : UInt32) (env : σ) (w : World α) :
    ∃ r, readPacketsFromSocket handle localAddress processor monotonicTime preferGro packetsDropped
      env w = some r ∧
      ReadsAccounted
        (readsAllowed handle preferGro (processor.numPacketsExpectedPerEventLoop env).toNat)
        packetsDropped r ∧
      r.FollowsReads handle localAddress processor monotonicTime
        (preferGro && handle.supportsUdpGro)
        packetsDropped env w := by
  let numPackets := min maxNumPacketsPerEventLoop (processor.numPacketsExpectedPerEventLoop env)
  let useGro := preferGro && handle.supportsUdpGro
  let numReads :=
    if useGro then numPackets / numDatagramsPerReceive
    else if handle.supportsMmsg then numPackets / numDatagramsPerReceive
    else numPackets
  have hcount : (max 1 numReads).toNat =
      readsAllowed handle preferGro (processor.numPacketsExpectedPerEventLoop env).toNat := by
    have hpackets : numPackets.toNat =
        min 6000 (processor.numPacketsExpectedPerEventLoop env).toNat := toNat_min_uint64 _ _
    have hreads : numReads.toNat =
        numPackets.toNat / (if useGro || handle.supportsMmsg then 16 else 1) := by
      show (if useGro then _ else _ : UInt64).toNat = _
      cases useGro with
      | true => exact UInt64.toNat_div _ _
      | false =>
        cases hmmsg : handle.supportsMmsg with
        | true => exact UInt64.toNat_div _ _
        | false => exact (Nat.div_one _).symm
    rw [toNat_max_uint64, hreads, hpackets]
    rfl
  have hne : max 1 numReads ≠ 0 := by
    intro hzero
    have hpos : 1 ≤ (max 1 numReads).toNat := by
      rw [toNat_max_uint64]
      exact Nat.le_max_left _ _
    rw [hzero] at hpos
    exact absurd hpos (by decide)
  obtain ⟨r, hloop, hr⟩ :=
    exists_readLoop h monotonicTime hne (Nat.le_refl _) packetsDropped env w
  rw [hcount] at hr
  exact ⟨r, hloop, hr, followsReads_of_readLoop hloop⟩

/-- Two empty datagrams arrive, and the counter wraps in between. -/
def wrappingHandle : IoHandle ℕ ℕ Unit where
  supportsMmsg := false
  supportsUdpGro := false
  recvmsg _ _ dropped env :=
    if env = 0 then (⟨0, none⟩, {}, 0xffffffff, 1)
    else if env = 1 then (⟨0, none⟩, {}, 3, 2)
    else (⟨0, some ()⟩, {}, dropped.getD 0, env)
  recvmmsg _ _ dropped env := (⟨0, some ()⟩, fun _ ↦ {}, dropped.getD 0, env)

theorem wrappingHandle_keeps : wrappingHandle.Keeps where
  within_slice len selfPort dropped env := by
    dsimp only [wrappingHandle]
    split_ifs <;> exact Nat.zero_le _
  within_slices _ _ _ _ _ _ _ := Nat.zero_le _
  returnValue_le _ _ _ _ _ := Nat.zero_le _
  recvmsg_failed len selfPort dropped env := by
    dsimp only [wrappingHandle]
    split_ifs
    · exact fun hfalse ↦ absurd hfalse Bool.noConfusion
    · exact fun hfalse ↦ absurd hfalse Bool.noConfusion
    · exact fun _ ↦ rfl
  recvmmsg_failed _ _ _ _ _ := rfl

theorem reads_bounded_and_accounted_wrapping :
    ∃ r, readPacketsFromSocket wrappingHandle (.ipv4 (.ofPort 80)) (discardingProcessor ℕ)
        (fun env ↦ (0, env)) true 7 0 { fragments := fun _ _ ↦ 0, fresh := fun _ _ ↦ 0 } = some r ∧
      ReadsAccounted 10 7 r ∧
      r.FollowsReads wrappingHandle (.ipv4 (.ofPort 80)) (discardingProcessor ℕ)
        (fun env ↦ (0, env))
        false 7 0 { fragments := fun _ _ ↦ 0, fresh := fun _ _ ↦ 0 } := by
  have hbounded : (discardingProcessor ℕ).Bounded := fun _ ↦
    show 16 * (1500 : UInt64).toNat ≤ maxSliceSize by decide
  have hreturn := wrappingHandle_keeps.readsReturn hbounded
    (show (Instance.ipv4 (.ofPort 80)).ip = some _ from rfl) false
  exact reads_bounded_and_accounted true hreturn _ 7 0 _

end TcpServer.Network
