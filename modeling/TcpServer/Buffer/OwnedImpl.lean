import TcpServer.Buffer.SliceDeque

/-!
# Buffers

`OwnedImpl` keeps a byte string in a ring of slices, with the number of bytes cached in `length_`.
The operations follow the source statement by statement. A few conventions hold throughout.

* **Byte strings.** A pointer and a size handed in by a caller are a list. A pointer into a slice is
  the part of the slice's bytes that is read through it.
* **Loops.** A loop over the slices of a buffer is a recursion with as much fuel as there are
  slices; every iteration but perhaps the last removes one. The loops of `addImpl` and `prepend` run
  on the bytes that are left, and every iteration but the first copies at least one of them or none
  ever will: a result `none` is a call that does not return.
* **Assertions.** `RELEASE_ASSERT` and the `ASSERT`s on the use of the interface have `none` as
  their failure. The other `ASSERT`s say what the code expects of itself and are not part of the
  model.
* **Moves.** A slice that is moved from is left empty (`Slice.empty`), so a `pop_front` after a move
  calls nothing.

The order of the definitions is that of the interface: adding at the end, reading, adding in front,
draining, moving. Nothing is proved here; what each operation does to the slices is in `Effects`,
`Room` and `Transfers`, and no later module unfolds one of these definitions. Reservations have a
module of their own.
-/

namespace TcpServer.Buffer

/-- An `OwnedImpl`. -/
structure OwnedImpl (α : Type*) where
  /-- `slices_`. -/
  slices : SliceDeque α := .empty
  /-- `length_`. -/
  length : UInt64 := 0
  /-- `account_`, by a number; what has none is not charged. -/
  account : Option ℕ := none

namespace OwnedImpl

variable {α : Type*}

/-- `CopyThreshold`. -/
def copyThreshold : ℕ := 512

/-! ### Adding at the end

Data are written to the room behind the last slice, then to new slices that are as long as what is
left of the data.
-/

/-- `slices_.emplace_back(Slice(size, account_))`. -/
def emplaceBackSlice (b : OwnedImpl α) (size : ℕ) (w : World α) : OwnedImpl α × World α :=
  let (slice, w) := Slice.create size b.account w
  let (slices, w) := b.slices.emplaceBack slice w
  ({ b with slices }, w)

/-- The loop of `addImpl`. -/
def addImplLoop : ℕ → Bool → List α → OwnedImpl α → World α → Option (OwnedImpl α × World α)
  | _, _, [], b, w => some (b, w)
  | 0, _, _ :: _, _, _ => none
  | fuel + 1, newSliceNeeded, x :: xs, b, w =>
    let (b, w) := if newSliceNeeded then b.emplaceBackSlice (x :: xs).length w else (b, w)
    let (copySize, back, w) := b.slices.back.append (x :: xs) w
    addImplLoop fuel true ((x :: xs).drop copySize)
      { b with slices := b.slices.setBack back, length := b.length + .ofNat copySize } w

/-- `addImpl`: a new slice is needed at once if there is none. -/
def addImpl (b : OwnedImpl α) (data : List α) (w : World α) : Option (OwnedImpl α × World α) :=
  addImplLoop (data.length + 1) b.slices.isEmpty data b w

/-- `addDrainTracker`, which asserts that the buffer is not empty. -/
def addDrainTracker (b : OwnedImpl α) (drainTracker : DrainTracker) : Option (OwnedImpl α) :=
  if b.slices.isEmpty then none
  else some { b with slices := b.slices.setBack (b.slices.back.addDrainTracker drainTracker) }

/-- `bindAccount`, which asserts that it is. -/
def bindAccount (b : OwnedImpl α) (account : Option ℕ) : Option (OwnedImpl α) :=
  if b.slices.isEmpty then some { b with account } else none

/-- `add`. -/
def add (b : OwnedImpl α) (data : List α) (w : World α) : Option (OwnedImpl α × World α) :=
  b.addImpl data w

/-- `addBufferFragment`. -/
def addBufferFragment (b : OwnedImpl α) (fragment : BufferFragment) (w : World α) :
    OwnedImpl α × World α :=
  let (slices, w) := b.slices.emplaceBack (Slice.ofFragment fragment) w
  ({ b with slices, length := b.length + .ofNat fragment.size }, w)

/-- `appendSliceForTest`, which counts the data whether or not they are kept. -/
def appendSliceForTest (b : OwnedImpl α) (data : List α) (w : World α) : OwnedImpl α × World α :=
  let (b, w) := b.emplaceBackSlice data.length w
  let (_, back, w) := b.slices.back.append data w
  ({ b with slices := b.slices.setBack back, length := b.length + .ofNat data.length }, w)

/-- The `memcpy`s of the fragments, one behind the other from `mem` on. -/
def copyFragments : List (List α) → ℕ → Slice α → World α → Slice α × World α
  | [], _, back, w => (back, w)
  | fragment :: fragments, mem, back, w =>
    let (back, w) := back.store w mem fragment
    copyFragments fragments (mem + fragment.length) back w

/-- The fallback of `addFragments`. -/
def addEach : List (List α) → OwnedImpl α → World α → Option (OwnedImpl α × World α)
  | [], b, w => some (b, w)
  | data :: rest, b, w => (b.addImpl data w).bind fun (b, w) ↦ addEach rest b w

/-- The sum of the sizes is a `size_t`. -/
def addFragments (b : OwnedImpl α) (fragments : List (List α)) (w : World α) :
    Option (ℕ × OwnedImpl α × World α) :=
  let totalSizeToCopy := (fragments.map List.length).sum % 2 ^ 64
  let (b, w) := if b.slices.isEmpty then b.emplaceBackSlice totalSizeToCopy w else (b, w)
  let reservation := b.slices.back.reserve totalSizeToCopy
  if reservation.len = totalSizeToCopy then
    let (back, w) := copyFragments fragments b.slices.back.reservable b.slices.back w
    let (back, _) := back.commit false reservation
    some (totalSizeToCopy,
      { b with slices := b.slices.setBack back, length := b.length + .ofNat totalSizeToCopy }, w)
  else (addEach fragments b w).map (totalSizeToCopy, ·)

/-! ### Reading

Reading goes through the slices in order and changes nothing. A slice without data is passed over.
-/

/-- The iterations of `getRawSlices`, up to `maxOut` slices with data. -/
def selectSlices : ℕ → List (Slice α) → List (Slice α)
  | 0, _ => []
  | _, [] => []
  | maxOut + 1, s :: slices =>
    if s.dataSize = 0 then selectSlices (maxOut + 1) slices else s :: selectSlices maxOut slices

/-- The slices behind `getRawSlices`. -/
def rawSlicesOf (b : OwnedImpl α) (maxSlices : Option ℕ) : List (Slice α) :=
  selectSlices (maxSlices.elim b.slices.size (min b.slices.size)) b.slices.toList

/-- `getRawSlices`: addresses and lengths. -/
def getRawSlices (b : OwnedImpl α) (maxSlices : Option ℕ) : List RawSlice :=
  (b.rawSlicesOf maxSlices).map fun s ↦ ⟨s.base.map (·, s.data), s.dataSize⟩

/-- The memory behind `getRawSlices()`. -/
def getRawSlicesData (b : OwnedImpl α) (w : World α) : List (List α) :=
  (b.rawSlicesOf none).map (·.bytes w)

/-- `toString`. -/
def toString (b : OwnedImpl α) (w : World α) : List α := (b.getRawSlicesData w).flatten

/-- The loop of `copyOut`. -/
def copyOutLoop (w : World α) : List (Slice α) → ℕ → ℕ → List α
  | [], _, _ => []
  | s :: slices, bytesToSkip, size =>
    if size = 0 then []
    else if s.dataSize ≤ bytesToSkip then copyOutLoop w slices (bytesToSkip - s.dataSize) size
    else
      let copySize := min size (s.dataSize - bytesToSkip)
      s.load w (s.data + bytesToSkip) copySize ++ copyOutLoop w slices 0 (size - copySize)

/-- What `copyOut` writes to its destination. -/
def copyOut (b : OwnedImpl α) (start size : ℕ) (w : World α) : List α :=
  copyOutLoop w b.slices.toList start size

/-- The loop of `startsWith`. -/
def startsWithLoop [DecidableEq α] (w : World α) : List (Slice α) → List α → Bool
  | [], _ => false
  | s :: slices, data =>
    if s.dataSize ≥ data.length then (s.bytes w).take data.length = data
    else if data.take s.dataSize ≠ s.bytes w then false
    else startsWithLoop w slices (data.drop s.dataSize)

/-- `startsWith`. -/
def startsWith [DecidableEq α] (b : OwnedImpl α) (data : List α) (w : World α) : Bool :=
  if b.length.toNat < data.length then false
  else if data.length = 0 then true
  else startsWithLoop w b.slices.toList data

/-- `add(const Instance&)`. -/
def addInstance (b data : OwnedImpl α) (w : World α) : Option (OwnedImpl α × World α) :=
  addEach (data.getRawSlicesData w) b w

/-! ### Adding in front

The string is written from its end, to the room before the first slice and then to new slices.
-/

/-- `slices_.emplace_front(Slice(size, account_))`. -/
def emplaceFrontSlice (b : OwnedImpl α) (size : ℕ) (w : World α) : OwnedImpl α × World α :=
  let (slice, w) := Slice.create size b.account w
  let (slices, w) := b.slices.emplaceFront slice w
  ({ b with slices }, w)

/-- The bytes that are left are a prefix of the string. -/
def prependLoop : ℕ → Bool → List α → OwnedImpl α → World α → Option (OwnedImpl α × World α)
  | _, _, [], b, w => some (b, w)
  | 0, _, _ :: _, _, _ => none
  | fuel + 1, newSliceNeeded, x :: xs, b, w =>
    let (b, w) := if newSliceNeeded then b.emplaceFrontSlice (x :: xs).length w else (b, w)
    let (copySize, front, w) := b.slices.front.prepend (x :: xs) w
    prependLoop fuel true ((x :: xs).take ((x :: xs).length - copySize))
      { b with slices := b.slices.setFront front, length := b.length + .ofNat copySize } w

/-- `prepend`. -/
def prepend (b : OwnedImpl α) (data : List α) (w : World α) : Option (OwnedImpl α × World α) :=
  prependLoop (data.length + 1) b.slices.isEmpty data b w

/-- The loop of `prepend(Instance&)`, which takes slices off the end of the other buffer. -/
def prependInstanceLoop : ℕ → OwnedImpl α → OwnedImpl α → World α →
    OwnedImpl α × OwnedImpl α × World α
  | 0, b, other, w => (b, other, w)
  | fuel + 1, b, other, w =>
    if other.slices.isEmpty then (b, other, w)
    else
      let back := other.slices.back
      let (slices, w) := b.slices.emplaceFront back w
      let otherSlices := other.slices.setBack .empty
      let (front, w) := slices.front.maybeChargeAccount b.account w
      let (otherSlices, w) := otherSlices.popBack w
      prependInstanceLoop fuel
        { b with slices := slices.setFront front, length := b.length + .ofNat back.dataSize }
        { other with slices := otherSlices, length := other.length - .ofNat back.dataSize } w

/-- `prepend(Instance&)`. -/
def prependInstance (b other : OwnedImpl α) (w : World α) : OwnedImpl α × OwnedImpl α × World α :=
  prependInstanceLoop other.slices.size b other w

/-! ### Draining

Whole slices are popped, and the first one that is longer than what is left is shortened.
-/

/-- `while (!slices_.empty() && slices_.front().dataSize() == 0) slices_.pop_front()`. -/
def popEmptyFront : ℕ → SliceDeque α → World α → SliceDeque α × World α
  | 0, q, w => (q, w)
  | fuel + 1, q, w =>
    if ¬q.isEmpty ∧ q.front.dataSize = 0 then
      let (q, w) := q.popFront w
      popEmptyFront fuel q w
    else (q, w)

/-- The loop of `drainImpl`. -/
def drainLoop : ℕ → ℕ → OwnedImpl α → World α → OwnedImpl α × World α
  | 0, _, b, w => (b, w)
  | fuel + 1, size, b, w =>
    if size = 0 ∨ b.slices.isEmpty then (b, w)
    else
      let sliceSize := b.slices.front.dataSize
      if sliceSize ≤ size then
        let (slices, w) := b.slices.popFront w
        drainLoop fuel (size - sliceSize) { b with slices, length := b.length - .ofNat sliceSize } w
      else
        ({ b with slices := b.slices.setFront (b.slices.front.drain size)
                  length := b.length - .ofNat size }, w)

/-- `drainImpl`. -/
def drainImpl (b : OwnedImpl α) (size : ℕ) (w : World α) : OwnedImpl α × World α :=
  let (b, w) := drainLoop b.slices.size size b w
  -- Zero byte fragments that were added as sentinels for flushed data go as well.
  let (slices, w) := popEmptyFront b.slices.size b.slices w
  ({ b with slices }, w)

/-- `drain`. -/
def drain (b : OwnedImpl α) (size : ℕ) (w : World α) : OwnedImpl α × World α := b.drainImpl size w

/-- The result is the slice and the buffer. It is undefined what happens when `length_` is positive
and no slice holds data. -/
def extractMutableFrontSlice (b : OwnedImpl α) (w : World α) :
    Option (Slice α × OwnedImpl α × World α) :=
  if b.length = 0 then none
  else
    let (slices, w) := popEmptyFront b.slices.size b.slices w
    if slices.isEmpty then none
    else
      let slice := slices.front
      let size := slice.dataSize
      let (slices, w) := (slices.setFront .empty).popFront w
      let b := { b with slices, length := b.length - .ofNat size }
      if slice.isMutable = false then
        let (mutableSlice, w) := Slice.create size none w
        let (_, mutableSlice, w) := mutableSlice.append (slice.bytes w) w
        some (mutableSlice, b, (slice.callAndClearDrainTrackersAndCharges w).2)
      else
        let (slice, w) := slice.callAndClearDrainTrackersAndCharges w
        some (slice, b, w)

/-- The result is the address of the first byte, and the buffer. -/
def linearize (b : OwnedImpl α) (size : ℕ) (w : World α) :
    Option (Option (Block × ℕ) × OwnedImpl α × World α) :=
  if size > b.length.toNat then none
  else if b.slices.isEmpty then some (none, b, w)
  else
    let (b, w) :=
      if (b.slices.get 0).dataSize < size then
        let (newSlice, w) := Slice.create size b.account w
        let reservation := newSlice.reserve size
        let (newSlice, w) := newSlice.store w newSlice.reservable (b.copyOut 0 size w)
        let (newSlice, _) := newSlice.commit true reservation
        let (b, w) := b.drainImpl size w
        let (slices, w) := b.slices.emplaceFront newSlice w
        ({ b with slices, length := b.length + .ofNat size }, w)
      else (b, w)
    some (b.slices.front.base.map (·, b.slices.front.data), b, w)

/-! ### Moving

A move passes on whole slices, or copies a small one into the last slice of the target and releases
it.
-/

/-- The result begins with what is left of `otherSlice`. -/
def coalesceOrAddSlice (b : OwnedImpl α) (otherSlice : Slice α) (w : World α) :
    Option (Slice α × OwnedImpl α × World α) :=
  let sliceSize := otherSlice.dataSize
  if otherSlice.canCoalesce ∧ ¬b.slices.isEmpty ∧ sliceSize < copyThreshold ∧
      b.slices.back.reservableSize ≥ sliceSize then
    (b.addImpl (otherSlice.bytes w) w).map fun (b, w) ↦
      let (otherSlice, back) := otherSlice.transferDrainTrackersTo b.slices.back
      (otherSlice, { b with slices := b.slices.setBack back }, w)
  else
    let (otherSlice, w) := otherSlice.maybeChargeAccount b.account w
    let (slices, w) := b.slices.emplaceBack otherSlice w
    some (.empty, { b with slices, length := b.length + .ofNat sliceSize }, w)

/-- A wholly moved front slice: `coalesceOrAddSlice(std::move(front))`, `pop_front` and the update
of `other.length_`. -/
def moveFront (b other : OwnedImpl α) (w : World α) :
    Option (OwnedImpl α × OwnedImpl α × World α) :=
  let sliceSize := other.slices.front.dataSize
  (b.coalesceOrAddSlice other.slices.front w).map fun (front, b, w) ↦
    let (slices, w) := (other.slices.setFront front).popFront w
    (b, { other with slices, length := other.length - .ofNat sliceSize }, w)

/-- The loop of `move(rhs)`. -/
def moveLoop : ℕ → OwnedImpl α → OwnedImpl α → World α →
    Option (OwnedImpl α × OwnedImpl α × World α)
  | 0, b, other, w => some (b, other, w)
  | fuel + 1, b, other, w =>
    if other.slices.isEmpty then some (b, other, w)
    else (b.moveFront other w).bind fun (b, other, w) ↦ moveLoop fuel b other w

/-- `move(rhs)`. -/
def move (b rhs : OwnedImpl α) (w : World α) : Option (OwnedImpl α × OwnedImpl α × World α) :=
  moveLoop rhs.slices.size b rhs w

/-- The loop of `move(rhs, length)`: of the slice in which the length ends, a part is copied and
drained. -/
def moveLengthLoop : ℕ → ℕ → OwnedImpl α → OwnedImpl α → World α →
    Option (OwnedImpl α × OwnedImpl α × World α)
  | 0, _, b, other, w => some (b, other, w)
  | fuel + 1, length, b, other, w =>
    if length = 0 ∨ other.slices.isEmpty then some (b, other, w)
    else
      let front := other.slices.front
      let sliceSize := front.dataSize
      let copySize := min sliceSize length
      if copySize = 0 then
        let (slices, w) := other.slices.popFront w
        moveLengthLoop fuel length b { other with slices } w
      else if copySize < sliceSize then
        (b.add ((front.bytes w).take copySize) w).bind fun (b, w) ↦
          moveLengthLoop fuel (length - copySize) b
            { other with slices := other.slices.setFront (front.drain copySize)
                         length := other.length - .ofNat copySize } w
      else
        (b.moveFront other w).bind fun (b, other, w) ↦
          moveLengthLoop fuel (length - copySize) b other w

/-- `move(rhs, length)`. -/
def moveLength (b rhs : OwnedImpl α) (length : ℕ) (w : World α) :
    Option (OwnedImpl α × OwnedImpl α × World α) :=
  moveLengthLoop rhs.slices.size length b rhs w

/-- `~OwnedImpl`. -/
def destroy (b : OwnedImpl α) (w : World α) : World α := b.slices.destroy w

end OwnedImpl

end TcpServer.Buffer
