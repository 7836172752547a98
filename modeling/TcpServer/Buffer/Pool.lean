import TcpServer.Buffer.Reservation
import TcpServer.Lib.Machine
import Mathlib.Algebra.BigOperators.Pi
import Mathlib.Data.Fintype.Basic
import Mathlib.Tactic.Abel

/-!
# Buffers in use

Any number of buffers and any number of reservations, used in any order. A buffer has an index `i :
ι`, a reservation that has been made a key `k : κ`. The slices that `extractMutableFrontSlice` has
handed out (`SliceDataImpl`) are kept in a list until they are destroyed.

`step` is one call of the interface, or one write of a caller to memory that a reservation lends. It
fails (`none`) where the source does not return, where one of its assertions about the use of the
interface fails, and where the call cannot be made at all: a buffer is not handed to itself, a key
is not used twice, and the bytes handed to one call can be counted by a `size_t`.

* Whatever the step, it is an evolution (`Evolves`) of everything there is: the slices of all
  buffers, the extracted slices, the storages of all reservations, and the trackers that the caller
  hands in (`Valid.steps`).
* `Valid` is what therefore holds in every reachable state (`valid_of_reachable`).

Nothing in the source is called a pool. It is there so that statements about all runs can be made: a
slice that leaves one buffer is in another one, or with a reservation, or extracted, or released,
and only the sum of these can be conserved. The calls that change one buffer, or two, or a buffer
and a reservation, are each reduced to a statement about the parts that they change
(`Valid.steps_setBuffer` and its like), with everything else as a bystander.
-/

namespace TcpServer.Buffer

variable {α : Type*}

/-- A reservation that has been made. -/
inductive Outstanding (α : Type*)
  | multiple (reservation : Reservation α)
  | single (reservation : ReservationSingleSlice α)

namespace Outstanding

/-- The slices of a reservation, of either kind. -/
def slices : Outstanding α → List RawSlice
  | .multiple r => r.slices
  | .single r => [r.slice]

/-- The number of bytes reserved. -/
def length : Outstanding α → ℕ
  | .multiple r => r.length
  | .single r => r.length

/-- Who owns the storages behind the slices. -/
def owner : Outstanding α → Option (SlicesOwner α)
  | .multiple r => r.slicesOwner
  | .single r => r.sliceOwner

/-- The reservation with another owner. -/
def setOwner (owner : SlicesOwner α) : Outstanding α → Outstanding α
  | .multiple r => .multiple { r with slicesOwner := some owner }
  | .single r => .single { r with sliceOwner := some owner }

/-- The storages of the owner, in the order of the slices. -/
def storages (o : Outstanding α) : List (SizedStorage α) :=
  o.owner.elim [] SlicesOwner.ownedStorages

@[simp] theorem slices_setOwner (o : Outstanding α) (owner : SlicesOwner α) :
    (o.setOwner owner).slices = o.slices := by
  cases o <;> rfl

@[simp] theorem length_setOwner (o : Outstanding α) (owner : SlicesOwner α) :
    (o.setOwner owner).length = o.length := by
  cases o <;> rfl

@[simp] theorem owner_setOwner (o : Outstanding α) (owner : SlicesOwner α) :
    (o.setOwner owner).owner = some owner := by
  cases o <;> rfl

theorem storages_of_owner {o : Outstanding α} {owner : SlicesOwner α} (h : o.owner = some owner) :
    o.storages = owner.ownedStorages := by
  rw [storages, h]
  rfl

/-- The caller writes through slice `j`, `offset` bytes from its beginning. The room behind the last
slice of a buffer can be written to as long as the buffer has not filled it. -/
def write (o : Outstanding α) (b : OwnedImpl α) (j offset : ℕ) (bytes : List α) (w : World α) :
    Option (Outstanding α × OwnedImpl α × World α) :=
  match o.owner, o.slices[j]?, o.storages[j]? with
  | some owner, some slice, some storage =>
    if slice.len < offset + bytes.length then none
    else
      match slice.mem, storage.mem with
      | some (_, start), some mem =>
        let mem := { mem with mem := Memory.write mem.mem (start + offset) bytes }
        some (o.setOwner (owner.withStorages (o.storages.set j { storage with mem := some mem })),
          b, w)
      | some (_, start), none =>
        let back := b.slices.back
        if slice.mem = back.base.map (·, back.reservable) ∧ slice.len ≤ back.reservableSize then
          let (back, w) := back.store w (start + offset) bytes
          some (o, { b with slices := b.slices.setBack back }, w)
        else none
      | none, _ => none
  | _, _, _ => none

end Outstanding

/-- The state: buffers, reservations, and what was extracted. -/
structure Pool (ι κ α : Type*) where
  /-- The buffers by index. -/
  buffers : ι → OwnedImpl α := fun _ ↦ {}
  /-- The slices that `extractMutableFrontSlice` has handed out. -/
  extracted : List (Slice α) := []
  /-- The reservations by key, each with its buffer. -/
  reservations : κ → Option (ι × Outstanding α) := fun _ ↦ none
  /-- Memory, the free list, and the record of the calls. -/
  world : World α

/-- The calls of the interface, and the writes of a caller. -/
inductive Op (ι κ α : Type*)
  | add (i : ι) (data : List α)
  | addInstance (i j : ι)
  | addBufferFragment (i : ι) (fragment : BufferFragment)
  | addFragments (i : ι) (fragments : List (List α))
  | appendSliceForTest (i : ι) (data : List α)
  | prepend (i : ι) (data : List α)
  | prependInstance (i j : ι)
  | drain (i : ι) (size : ℕ)
  | move (i j : ι)
  | moveLength (i j : ι) (length : ℕ)
  | linearize (i : ι) (size : ℕ)
  | extractMutableFrontSlice (i : ι)
  | addDrainTracker (i : ι) (id : ℕ)
  | bindAccount (i : ι) (account : Option ℕ)
  | reserveForRead (i : ι) (k : κ)
  | reserveWithMaxLength (i : ι) (k : κ) (maxLength : ℕ)
  | reserveSingleSlice (i : ι) (k : κ) (length : ℕ) (separateSlice : Bool)
  | write (k : κ) (j offset : ℕ) (bytes : List α)
  | commit (k : κ) (length : ℕ)
  | dropReservation (k : κ)
  | destroySliceData (n : ℕ)
  | destroy (i : ι)

/-- The trackers that a call registers. -/
def Op.registered {ι κ : Type*} : Op ι κ α → List DrainTracker
  | .addBufferFragment _ fragment => [.done fragment.id]
  | .addDrainTracker _ id => [.callback id]
  | _ => []

/-- The buffers that a call changes. -/
def Op.modifies {ι κ : Type*} (st : Pool ι κ α) : Op ι κ α → List ι
  | .add i _ | .addInstance i _ | .addBufferFragment i _ | .addFragments i _
  | .appendSliceForTest i _ | .prepend i _ | .drain i _ | .linearize i _
  | .extractMutableFrontSlice i | .addDrainTracker i _ | .bindAccount i _ | .reserveForRead i _
  | .reserveWithMaxLength i _ _ | .reserveSingleSlice i _ _ _ | .destroy i => [i]
  | .prependInstance i j | .move i j | .moveLength i j _ => [i, j]
  | .write k _ _ _ | .commit k _ => ((st.reservations k).map Prod.fst).toList
  | .dropReservation _ | .destroySliceData _ => []

namespace Pool

variable {ι κ α : Type*}

/-- No buffer has a slice, and nothing has been allocated, called or charged. -/
def init (fragments fresh : ℕ → ℕ → α) : Pool ι κ α where
  world := { fragments, fresh }

/-- A buffer, and the world, after a call. -/
def setBuffer [DecidableEq ι] (st : Pool ι κ α) (i : ι) (b : OwnedImpl α) (w : World α) :
    Pool ι κ α :=
  { st with buffers := Function.update st.buffers i b, world := w }

/-- A reservation is made, changed or gone. -/
def setReservation [DecidableEq κ] (st : Pool ι κ α) (k : κ) (r : Option (ι × Outstanding α)) :
    Pool ι κ α :=
  { st with reservations := Function.update st.reservations k r }

@[simp] theorem buffers_setBuffer_self [DecidableEq ι] (st : Pool ι κ α) (i : ι)
    (b : OwnedImpl α) (w : World α) : (st.setBuffer i b w).buffers i = b := by
  simp [setBuffer]

theorem buffers_setBuffer_of_ne [DecidableEq ι] (st : Pool ι κ α) {i j : ι} (h : j ≠ i)
    (b : OwnedImpl α) (w : World α) : (st.setBuffer i b w).buffers j = st.buffers j := by
  simp [setBuffer, h]

@[simp] theorem buffers_setReservation [DecidableEq κ] (st : Pool ι κ α) (k : κ)
    (r : Option (ι × Outstanding α)) : (st.setReservation k r).buffers = st.buffers := rfl

@[simp] theorem reservations_setReservation_self [DecidableEq κ] (st : Pool ι κ α) (k : κ)
    (r : Option (ι × Outstanding α)) : (st.setReservation k r).reservations k = r := by
  simp [setReservation]

theorem reservations_setReservation_of_ne [DecidableEq κ] (st : Pool ι κ α) {k k' : κ}
    (h : k' ≠ k) (r : Option (ι × Outstanding α)) :
    (st.setReservation k r).reservations k' = st.reservations k' := by
  simp [setReservation, h]

/-- One call. -/
def step [DecidableEq ι] [DecidableEq κ] [Fintype κ] : Op ι κ α → Pool ι κ α → Option (Pool ι κ α)
  | .add i data, st =>
    if data.length < 2 ^ 64 then
      ((st.buffers i).add data st.world).map fun (b, w) ↦ st.setBuffer i b w
    else none
  | .addInstance i j, st =>
    if i ≠ j then
      ((st.buffers i).addInstance (st.buffers j) st.world).map fun (b, w) ↦ st.setBuffer i b w
    else none
  | .addBufferFragment i fragment, st =>
    if fragment.size < 2 ^ 64 then
      let (b, w) := (st.buffers i).addBufferFragment fragment st.world
      some (st.setBuffer i b w)
    else none
  | .addFragments i fragments, st =>
    if (fragments.map List.length).sum < 2 ^ 64 then
      ((st.buffers i).addFragments fragments st.world).map fun (_, b, w) ↦ st.setBuffer i b w
    else none
  | .appendSliceForTest i data, st =>
    if data.length < 2 ^ 64 then
      let (b, w) := (st.buffers i).appendSliceForTest data st.world
      some (st.setBuffer i b w)
    else none
  | .prepend i data, st =>
    if data.length < 2 ^ 64 then
      ((st.buffers i).prepend data st.world).map fun (b, w) ↦ st.setBuffer i b w
    else none
  | .prependInstance i j, st =>
    if i ≠ j then
      let (b, other, w) := (st.buffers i).prependInstance (st.buffers j) st.world
      some ((st.setBuffer i b w).setBuffer j other w)
    else none
  | .drain i size, st =>
    let (b, w) := (st.buffers i).drain size st.world
    some (st.setBuffer i b w)
  | .move i j, st =>
    if i ≠ j then
      ((st.buffers i).move (st.buffers j) st.world).map fun (b, other, w) ↦
        (st.setBuffer i b w).setBuffer j other w
    else none
  | .moveLength i j length, st =>
    if i ≠ j then
      ((st.buffers i).moveLength (st.buffers j) length st.world).map fun (b, other, w) ↦
        (st.setBuffer i b w).setBuffer j other w
    else none
  | .linearize i size, st =>
    if size < 2 ^ 32 then
      ((st.buffers i).linearize size st.world).map fun (_, b, w) ↦ st.setBuffer i b w
    else none
  | .extractMutableFrontSlice i, st =>
    ((st.buffers i).extractMutableFrontSlice st.world).map fun (slice, b, w) ↦
      { st.setBuffer i b w with extracted := slice :: st.extracted }
  | .addDrainTracker i id, st =>
    ((st.buffers i).addDrainTracker (.callback id)).map fun b ↦ st.setBuffer i b st.world
  | .bindAccount i account, st =>
    ((st.buffers i).bindAccount account).map fun b ↦ st.setBuffer i b st.world
  | .reserveForRead i k, st =>
    if (st.reservations k).isNone then
      let (r, b, w) := (st.buffers i).reserveForRead st.world
      some ((st.setBuffer i b w).setReservation k (some (i, .multiple r)))
    else none
  | .reserveWithMaxLength i k maxLength, st =>
    if (st.reservations k).isNone ∧ 0 < maxLength then
      let (r, b, w) := (st.buffers i).reserveWithMaxLength maxLength st.world
      some ((st.setBuffer i b w).setReservation k (some (i, .multiple r)))
    else none
  | .reserveSingleSlice i k length separateSlice, st =>
    if (st.reservations k).isNone ∧ 0 < length ∧ length ≤ maxSliceSize then
      let (r, b, w) := (st.buffers i).reserveSingleSlice length separateSlice st.world
      some ((st.setBuffer i b w).setReservation k (some (i, .single r)))
    else none
  | .write k j offset bytes, st =>
    (st.reservations k).bind fun (i, o) ↦
      (o.write (st.buffers i) j offset bytes st.world).map fun (o, b, w) ↦
        (st.setBuffer i b w).setReservation k (some (i, o))
  | .commit k length, st =>
    (st.reservations k).bind fun (i, o) ↦
      if length ≤ o.length then
        o.owner.bind fun owner ↦
          ((st.buffers i).commit length o.slices owner st.world).map fun (b, w) ↦
            (st.setBuffer i b w).setReservation k none
      else none
  | .dropReservation k, st =>
    (st.reservations k).bind fun (_, o) ↦
      o.owner.map fun owner ↦
        { st.setReservation k none with world := owner.destroy st.world }
  | .destroySliceData n, st =>
    st.extracted[n]?.map fun slice ↦
      { st with
        extracted := st.extracted.eraseIdx n
        world := (slice.callAndClearDrainTrackersAndCharges st.world).2 }
  | .destroy i, st =>
    if ∀ k, (st.reservations k).map Prod.fst ≠ some i then
      some (st.setBuffer i {} ((st.buffers i).destroy st.world))
    else none

/-! ### What a step leaves alone

What a call does is taken apart once, so that every later case analysis is one on `Stepped`, where
each case has the operation of `OwnedImpl` that has returned.
-/

section Frame

variable [DecidableEq ι] [DecidableEq κ] [Fintype κ] {st st' : Pool ι κ α} {i : ι} {k : κ}

/-- What a call does when it returns. -/
inductive Stepped (st : Pool ι κ α) : Op ι κ α → Pool ι κ α → Prop
  | add {i data b w} (hlt : data.length < 2 ^ 64)
      (hadd : (st.buffers i).add data st.world = some (b, w)) :
    Stepped st (.add i data) (st.setBuffer i b w)
  | addInstance {i j b w} (hij : i ≠ j)
    (hadd : (st.buffers i).addInstance (st.buffers j) st.world = some (b, w)) :
    Stepped st (.addInstance i j) (st.setBuffer i b w)
  | addBufferFragment {i fragment} (hlt : fragment.size < 2 ^ 64) :
    Stepped st (.addBufferFragment i fragment)
      (st.setBuffer i ((st.buffers i).addBufferFragment fragment st.world).1
        ((st.buffers i).addBufferFragment fragment st.world).2)
  | addFragments {i fragments n b w} (hsum : (fragments.map List.length).sum < 2 ^ 64)
    (hadd : (st.buffers i).addFragments fragments st.world = some (n, b, w)) :
    Stepped st (.addFragments i fragments) (st.setBuffer i b w)
  | appendSliceForTest {i data} (hlt : data.length < 2 ^ 64) :
    Stepped st (.appendSliceForTest i data)
      (st.setBuffer i ((st.buffers i).appendSliceForTest data st.world).1
        ((st.buffers i).appendSliceForTest data st.world).2)
  | prepend {i data b w} (hlt : data.length < 2 ^ 64)
    (hprepend : (st.buffers i).prepend data st.world = some (b, w)) :
    Stepped st (.prepend i data) (st.setBuffer i b w)
  | prependInstance {i j b other w} (hij : i ≠ j)
    (hprepend : (st.buffers i).prependInstance (st.buffers j) st.world = (b, other, w)) :
    Stepped st (.prependInstance i j) ((st.setBuffer i b w).setBuffer j other w)
  | drain (i size) :
    Stepped st (.drain i size)
      (st.setBuffer i ((st.buffers i).drain size st.world).1 ((st.buffers i).drain size st.world).2)
  | move {i j b other w} (hij : i ≠ j)
    (hmove : (st.buffers i).move (st.buffers j) st.world = some (b, other, w)) :
    Stepped st (.move i j) ((st.setBuffer i b w).setBuffer j other w)
  | moveLength {i j length b other w} (hij : i ≠ j)
    (hmove : (st.buffers i).moveLength (st.buffers j) length st.world = some (b, other, w)) :
    Stepped st (.moveLength i j length) ((st.setBuffer i b w).setBuffer j other w)
  | linearize {i size p b w} (hsize : size < 2 ^ 32)
    (hlinearize : (st.buffers i).linearize size st.world = some (p, b, w)) :
    Stepped st (.linearize i size) (st.setBuffer i b w)
  | extractMutableFrontSlice {i slice b w}
    (hextract : (st.buffers i).extractMutableFrontSlice st.world = some (slice, b, w)) :
    Stepped st (.extractMutableFrontSlice i)
      { st.setBuffer i b w with extracted := slice :: st.extracted }
  | addDrainTracker {i id b} (hadd : (st.buffers i).addDrainTracker (.callback id) = some b) :
    Stepped st (.addDrainTracker i id) (st.setBuffer i b st.world)
  | bindAccount {i account b} (hbind : (st.buffers i).bindAccount account = some b) :
    Stepped st (.bindAccount i account) (st.setBuffer i b st.world)
  | reserveForRead {i k r b w} (hk : (st.reservations k).isNone)
    (hreserve : (st.buffers i).reserveForRead st.world = (r, b, w)) :
    Stepped st (.reserveForRead i k) ((st.setBuffer i b w).setReservation k (some (i, .multiple r)))
  | reserveWithMaxLength {i k maxLength r b w} (hk : (st.reservations k).isNone)
      (hpos : 0 < maxLength)
    (hreserve : (st.buffers i).reserveWithMaxLength maxLength st.world = (r, b, w)) :
    Stepped st (.reserveWithMaxLength i k maxLength)
      ((st.setBuffer i b w).setReservation k (some (i, .multiple r)))
  | reserveSingleSlice {i k length separateSlice r b w} (hk : (st.reservations k).isNone)
    (hpos : 0 < length) (hle : length ≤ maxSliceSize)
    (hreserve : (st.buffers i).reserveSingleSlice length separateSlice st.world = (r, b, w)) :
    Stepped st (.reserveSingleSlice i k length separateSlice)
      ((st.setBuffer i b w).setReservation k (some (i, .single r)))
  | write {i k j offset bytes o o' b w} (hk : st.reservations k = some (i, o))
    (hwrite : o.write (st.buffers i) j offset bytes st.world = some (o', b, w)) :
    Stepped st (.write k j offset bytes) ((st.setBuffer i b w).setReservation k (some (i, o')))
  | commit {i k length o owner b w} (hk : st.reservations k = some (i, o)) (hle : length ≤ o.length)
    (howner : o.owner = some owner)
    (hcommit : (st.buffers i).commit length o.slices owner st.world = some (b, w)) :
    Stepped st (.commit k length) ((st.setBuffer i b w).setReservation k none)
  | dropReservation {i k o owner} (hk : st.reservations k = some (i, o))
      (howner : o.owner = some owner) :
    Stepped st (.dropReservation k) { st.setReservation k none with
      world := owner.destroy st.world }
  | destroySliceData {n slice} (hslice : st.extracted[n]? = some slice) :
    Stepped st (.destroySliceData n)
      { st with
        extracted := st.extracted.eraseIdx n
        world := (slice.callAndClearDrainTrackersAndCharges st.world).2 }
  | destroy {i : ι} (hfree : ∀ k, (st.reservations k).map Prod.fst ≠ some i) :
    Stepped st (.destroy i) (st.setBuffer i {} ((st.buffers i).destroy st.world))

/-- The calls, one by one. -/
theorem stepped_of_step {op : Op ι κ α} (h : step op st = some st') : Stepped st op st' := by
  cases op with
  | add | addInstance | prepend =>
    simp only [step] at h
    split_ifs at h with hguard
    obtain ⟨⟨b, w⟩, hcall, rfl⟩ := Option.map_eq_some_iff.1 h
    constructor
    · exact hguard
    · exact hcall
  | addFragments i fragments =>
    simp only [step] at h
    split_ifs at h with hsum
    obtain ⟨⟨n, b, w⟩, hadd, rfl⟩ := Option.map_eq_some_iff.1 h
    exact .addFragments hsum hadd
  | linearize i size =>
    simp only [step] at h
    split_ifs at h with hsize
    obtain ⟨⟨p, b, w⟩, hlinearize, rfl⟩ := Option.map_eq_some_iff.1 h
    exact .linearize hsize hlinearize
  | move | moveLength =>
    simp only [step] at h
    split_ifs at h with hij
    obtain ⟨⟨b, other, w⟩, hmove, rfl⟩ := Option.map_eq_some_iff.1 h
    constructor
    · exact hij
    · exact hmove
  | prependInstance i j =>
    simp only [step] at h
    split_ifs at h with hij
    obtain rfl := Option.some.inj h
    exact .prependInstance hij rfl
  | addBufferFragment | appendSliceForTest =>
    simp only [step] at h
    split_ifs at h with hlt
    obtain rfl := Option.some.inj h
    constructor
    exact hlt
  | drain i size =>
    obtain rfl := Option.some.inj h
    exact .drain i size
  | extractMutableFrontSlice i =>
    obtain ⟨⟨slice, b, w⟩, hextract, rfl⟩ := Option.map_eq_some_iff.1 h
    exact .extractMutableFrontSlice hextract
  | addDrainTracker i id =>
    obtain ⟨b, hadd, rfl⟩ := Option.map_eq_some_iff.1 h
    exact .addDrainTracker hadd
  | bindAccount i account =>
    obtain ⟨b, hbind, rfl⟩ := Option.map_eq_some_iff.1 h
    exact .bindAccount hbind
  | reserveForRead i k =>
    simp only [step] at h
    split_ifs at h with hk
    obtain rfl := Option.some.inj h
    exact .reserveForRead hk rfl
  | reserveWithMaxLength i k maxLength =>
    simp only [step] at h
    split_ifs at h with hk
    obtain rfl := Option.some.inj h
    exact .reserveWithMaxLength hk.1 hk.2 rfl
  | reserveSingleSlice i k length separateSlice =>
    simp only [step] at h
    split_ifs at h with hk
    obtain rfl := Option.some.inj h
    exact .reserveSingleSlice hk.1 hk.2.1 hk.2.2 rfl
  | write k j offset bytes =>
    obtain ⟨⟨i, o⟩, hk, h⟩ := Option.bind_eq_some_iff.1 h
    obtain ⟨⟨o', b, w⟩, hwrite, rfl⟩ := Option.map_eq_some_iff.1 h
    exact .write hk hwrite
  | commit k length =>
    obtain ⟨⟨i, o⟩, hk, h⟩ := Option.bind_eq_some_iff.1 h
    dsimp only at h
    split_ifs at h with hle
    obtain ⟨owner, howner, h⟩ := Option.bind_eq_some_iff.1 h
    obtain ⟨⟨b, w⟩, hcommit, rfl⟩ := Option.map_eq_some_iff.1 h
    exact .commit hk hle howner hcommit
  | dropReservation k =>
    obtain ⟨⟨i, o⟩, hk, h⟩ := Option.bind_eq_some_iff.1 h
    obtain ⟨owner, howner, rfl⟩ := Option.map_eq_some_iff.1 h
    exact .dropReservation hk howner
  | destroySliceData n =>
    obtain ⟨slice, hslice, rfl⟩ := Option.map_eq_some_iff.1 h
    exact .destroySliceData hslice
  | destroy i =>
    simp only [step] at h
    split_ifs at h with hfree
    obtain rfl := Option.some.inj h
    exact .destroy hfree

/-- A `prepend` that returns is a `prepend` of the buffer. -/
theorem prepend_of_step {data : List α} (h : step (.prepend i data) st = some st') :
    ∃ b w, (st.buffers i).prepend data st.world = some (b, w) ∧ st' = st.setBuffer i b w := by
  cases stepped_of_step h with
  | @prepend _ _ b w _ hprepend => exact ⟨b, w, hprepend, rfl⟩

/-- A call changes only the buffers that it modifies. -/
theorem buffers_of_step {op : Op ι κ α} (h : step op st = some st') (hi : i ∉ op.modifies st) :
    st'.buffers i = st.buffers i := by
  cases stepped_of_step h with
  | add | addInstance | addBufferFragment | addFragments | appendSliceForTest | prepend | drain
  | linearize | addDrainTracker | bindAccount | destroy =>
    exact buffers_setBuffer_of_ne st (fun heq ↦ hi (List.mem_singleton.2 heq)) _ _
  | extractMutableFrontSlice =>
    exact Function.update_of_ne (fun heq ↦ hi (List.mem_singleton.2 heq)) _ _
  | reserveForRead | reserveWithMaxLength | reserveSingleSlice =>
    rw [buffers_setReservation, buffers_setBuffer_of_ne _ fun heq ↦ hi (List.mem_singleton.2 heq)]
  | prependInstance | move | moveLength =>
    have hij := not_or.1 (List.mem_cons.not.1 hi)
    rw [buffers_setBuffer_of_ne _ fun heq ↦ hij.2 (List.mem_singleton.2 heq),
      buffers_setBuffer_of_ne _ hij.1]
  -- which buffer backs the reservation is known from the state only
  | write hk' | commit hk' =>
    rw [Op.modifies, hk'] at hi
    rw [buffers_setReservation, buffers_setBuffer_of_ne _ fun heq ↦ hi (List.mem_singleton.2 heq)]
  | dropReservation | destroySliceData => rfl

/-- A reservation changes only if it is written to, committed or dropped. -/
theorem reservations_of_step {op : Op ι κ α} {o : Outstanding α}
    (hk : st.reservations k = some (i, o)) (h : step op st = some st') (hi : i ∉ op.modifies st)
    (hdrop : op ≠ .dropReservation k) : st'.reservations k = some (i, o) := by
  have hsome : ¬(st.reservations k).isNone := by
    rw [hk]
    exact Bool.false_ne_true
  cases stepped_of_step h with
  | add | addInstance | addBufferFragment | addFragments | appendSliceForTest | prepend
  | prependInstance | drain | move | moveLength | linearize | extractMutableFrontSlice
  | addDrainTracker | bindAccount | destroySliceData | destroy => exact hk
  | reserveForRead hnone | reserveWithMaxLength hnone | reserveSingleSlice hnone =>
    refine (reservations_setReservation_of_ne _ ?_ _).trans hk
    rintro rfl
    exact hsome hnone
  | write hk' | commit hk' =>
    -- a write to `k`, or a commit of it, would modify the buffer that backs it
    refine (reservations_setReservation_of_ne _ ?_ _).trans hk
    rintro rfl
    obtain rfl := (Prod.mk.inj (Option.some.inj (hk.symm.trans hk'))).1
    exact hi (by rw [Op.modifies, hk]; exact List.mem_singleton_self _)
  | dropReservation =>
    exact (reservations_setReservation_of_ne _ (fun heq ↦ hdrop (by rw [heq])) _).trans hk

end Frame

/-! ### Everything there is

The inventory is a sum over all buffers and reservations. To see what a change of one of them does,
the sum is split into that part and the rest, which does not change.
-/

/-- The storages of a reservation. -/
def heldIn (r : Option (ι × Outstanding α)) : Inventory α := (0, heldBy (r.elim [] (·.2.storages)))

section Inventory

variable [Fintype ι] [Fintype κ]

/-- The slices and the storages of everything there is. -/
def inventory (st : Pool ι κ α) : Inventory α :=
  ∑ i, slicesOf (st.buffers i).slices.toList + ∑ k, heldIn (st.reservations k) +
    slicesOf st.extracted

/-- The slices of all buffers, and the extracted ones. -/
def live (st : Pool ι κ α) : Multiset (Slice α) :=
  ∑ i, ((st.buffers i).slices.toList : Multiset (Slice α)) + st.extracted

theorem inventory_fst (st : Pool ι κ α) : st.inventory.1 = st.live := by
  simp [inventory, live, heldIn, slicesOf, Prod.fst_sum]

@[simp] theorem inventory_init (fragments fresh : ℕ → ℕ → α) :
    (init fragments fresh : Pool ι κ α).inventory = 0 := by
  have hheld : heldIn (none : Option (ι × Outstanding α)) = (0 : Inventory α) := rfl
  simp [inventory, init, hheld]

variable [DecidableEq ι]

/-- A buffer and the rest. -/
theorem exists_inventory_setBuffer (st : Pool ι κ α) (i : ι) :
    ∃ R, st.inventory = R + slicesOf (st.buffers i).slices.toList ∧
      ∀ b w, (st.setBuffer i b w).inventory = R + slicesOf b.slices.toList := by
  obtain ⟨R, h, hupdate⟩ :=
    Ledger.exists_sum_update (fun b : OwnedImpl α ↦ slicesOf b.slices.toList) st.buffers i
  refine ⟨R + ∑ k, heldIn (st.reservations k) + slicesOf st.extracted, ?_, fun b w ↦ ?_⟩
  · rw [inventory, h]
    abel
  · rw [inventory, setBuffer]
    dsimp only
    rw [hupdate]
    abel

/-- Two buffers and the rest. -/
theorem exists_inventory_setBuffers (st : Pool ι κ α) {i j : ι} (hij : i ≠ j) :
    ∃ R, st.inventory =
        R + (slicesOf (st.buffers i).slices.toList + slicesOf (st.buffers j).slices.toList) ∧
      ∀ b w b' w', ((st.setBuffer i b w).setBuffer j b' w').inventory =
        R + (slicesOf b.slices.toList + slicesOf b'.slices.toList) := by
  obtain ⟨R, h, hupdate⟩ :=
    Ledger.exists_sum_update₂ (fun b : OwnedImpl α ↦ slicesOf b.slices.toList) st.buffers hij
  refine ⟨R + ∑ k, heldIn (st.reservations k) + slicesOf st.extracted, ?_, fun b w b' w' ↦ ?_⟩
  · rw [inventory, h]
    abel
  · rw [inventory, setBuffer, setBuffer]
    dsimp only
    rw [hupdate]
    abel

/-- A buffer, a reservation, and the rest. -/
theorem exists_inventory_setReservation [DecidableEq κ] (st : Pool ι κ α) (i : ι) (k : κ) :
    ∃ R, st.inventory = R + (slicesOf (st.buffers i).slices.toList + heldIn (st.reservations k)) ∧
      ∀ b w r, ((st.setBuffer i b w).setReservation k r).inventory =
        R + (slicesOf b.slices.toList + heldIn r) := by
  obtain ⟨R, h, hupdate⟩ :=
    Ledger.exists_sum_update (fun b : OwnedImpl α ↦ slicesOf b.slices.toList) st.buffers i
  obtain ⟨R', h', hupdate'⟩ := Ledger.exists_sum_update heldIn st.reservations k
  refine ⟨R + R' + slicesOf st.extracted, ?_, fun b w r ↦ ?_⟩
  · rw [inventory, h, h']
    abel
  · rw [inventory, setReservation, setBuffer]
    dsimp only
    rw [hupdate, hupdate']
    abel

end Inventory

end Pool

/-! ### Writes of the caller

A caller writes to memory that a reservation lends, in any order and as often as it likes. It is the
room behind the last slice of the buffer or a storage of the owner, and in both cases nothing can be
read of it from the buffer.
-/

/-- What a write through a reservation does: it is not seen in the buffer, and the reservation is as
good as before. -/
structure Rewrites (o : Outstanding α) (b : OwnedImpl α) (o' : Outstanding α) (b' : OwnedImpl α) :
    Prop where
  /-- The slices of the reservation stay. -/
  slices : o'.slices = o.slices
  /-- So does its length. -/
  length : o'.length = o.length
  /-- Its owner is still in order. -/
  owner : (∀ owner, o.owner = some owner → owner.WF) → ∀ owner, o'.owner = some owner → owner.WF
  /-- It holds the same storages. -/
  held : heldBy o'.storages = heldBy o.storages
  /-- The account of the buffer stays. -/
  bufferAccount : b'.account = b.account
  /-- So does its length. -/
  bufferLength : b'.length = b.length
  /-- The slices of the buffer evolve. -/
  evolves : ∀ w, Evolves (slicesOf b.slices.toList) w (slicesOf b'.slices.toList) w
  /-- Its content stays. -/
  contentOf : ∀ w, contentOf w b'.slices.toList = contentOf w b.slices.toList
  /-- It still backs the reservation. -/
  backed : Backed b o.slices o.storages → Backed b' o'.slices o'.storages

/-- A storage may be rewritten where it is. -/
theorem heldBy_set {storages : List (SizedStorage α)} {j : ℕ} {storage storage' : SizedStorage α}
    (hj : storages[j]? = some storage)
    (h : storage'.mem.map Storage.id = storage.mem.map Storage.id) :
    heldBy (storages.set j storage') = heldBy storages := by
  have hids (l : List (SizedStorage α)) :
      (l.filterMap SizedStorage.mem).map Storage.id =
        l.filterMap fun st ↦ st.mem.map Storage.id := by
    rw [List.map_filterMap]
  rw [heldBy, heldBy, hids, hids]
  induction storages generalizing j with
  | nil => rfl
  | cons st storages ih =>
    cases j with
    | zero =>
      obtain rfl : st = storage := by simpa using hj
      rw [List.set_cons_zero, List.filterMap_cons, List.filterMap_cons, h]
    | succ j =>
      have := ih (by simpa using hj)
      rw [Multiset.coe_eq_coe] at this ⊢
      rw [List.set_cons_succ, List.filterMap_cons, List.filterMap_cons]
      cases st.mem.map Storage.id with
      | none => exact this
      | some id => exact this.cons id

theorem forall₂_lends_set {slices : List RawSlice} {storages : List (SizedStorage α)} {j : ℕ}
    {storage storage' : SizedStorage α} (h : List.Forall₂ Lends slices storages)
    (hj : storages[j]? = some storage) (hlends : ∀ r, Lends r storage → Lends r storage') :
    List.Forall₂ Lends slices (storages.set j storage') := by
  induction h generalizing j with
  | nil => exact .nil
  | @cons r st slices storages hr hrest ih =>
    cases j with
    | zero =>
      obtain rfl : st = storage := by simpa using hj
      exact .cons (hlends r hr) hrest
    | succ j => exact .cons hr (ih (by simpa using hj))

/-- The reservation is backed as before if the memory of an owned storage changes. -/
theorem Backed.set {b : OwnedImpl α} {slices : List RawSlice} {storages : List (SizedStorage α)}
    (h : Backed b slices storages) {j : ℕ} {storage storage' : SizedStorage α}
    (hj : storages[j]? = some storage) (hmem : storage.mem ≠ none)
    (hlends : ∀ r, Lends r storage → Lends r storage') :
    Backed b slices (storages.set j storage') := by
  cases h with
  | owned h => exact .owned (forall₂_lends_set h hj hlends)
  | behind hl hk hroom h =>
    cases j with
    | zero =>
      obtain rfl : {} = storage := by simpa using hj
      exact absurd rfl hmem
    | succ j => exact .behind hl hk hroom (forall₂_lends_set h (by simpa using hj) hlends)

/-- It is backed as before if the memory of the last slice changes. -/
theorem Backed.setBack {b b' : OwnedImpl α} {slices : List RawSlice}
    {storages : List (SizedStorage α)} (h : Backed b slices storages) {l : List (Slice α)}
    {s s' : Slice α} (hl : b.slices.toList = l ++ [s]) (hl' : b'.slices.toList = l ++ [s'])
    (hsame : s.Same s') (hreservable : s'.reservable = s.reservable) :
    Backed b' slices storages := by
  cases h with
  | owned h => exact .owned h
  | @behind l₁ s₁ k slices storages hl₁ hk hroom h =>
    obtain ⟨-, hs⟩ := List.append_inj' (hl₁.symm.trans hl) rfl
    obtain rfl := List.head_eq_of_cons_eq hs
    have hroom' : k ≤ s'.reservableSize := by
      rw [Slice.reservableSize, hsame.capacity, hreservable]
      exact hroom
    have := Backed.behind hl' hk hroom' h
    rwa [hsame.base, hreservable] at this

theorem Outstanding.storages_setOwner {o : Outstanding α} {owner : SlicesOwner α}
    (howner : o.owner = some owner) {storages : List (SizedStorage α)}
    (h : storages.length = o.storages.length) :
    (o.setOwner (owner.withStorages storages)).storages = storages := by
  rw [storages_of_owner (owner_setOwner o _)]
  exact SlicesOwner.ownedStorages_withStorages (by rw [h, storages_of_owner howner])

/-- Writing to a storage of the owner. -/
theorem rewrites_setOwner {o : Outstanding α} {owner : SlicesOwner α}
    (howner : o.owner = some owner)
    (b : OwnedImpl α) {j : ℕ} {storage : SizedStorage α} (hj : o.storages[j]? = some storage)
    {mem : Storage α} (hmem : storage.mem = some mem) (mem' : ℕ → α) :
    Rewrites o b (o.setOwner (owner.withStorages
      (o.storages.set j { storage with mem := some { mem with mem := mem' } }))) b := by
  have hstorages := Outstanding.storages_of_owner howner
  have hset : (o.setOwner (owner.withStorages
      (o.storages.set j { storage with mem := some { mem with mem := mem' } }))).storages =
        o.storages.set j { storage with mem := some { mem with mem := mem' } } :=
    Outstanding.storages_setOwner howner List.length_set
  have hlends (r : RawSlice) (h : Lends r storage) :
      Lends r { storage with mem := some { mem with mem := mem' } } := by
    obtain ⟨m, hm, hr, hpos, hle⟩ := h
    obtain rfl : mem = m := Option.some.inj (hmem.symm.trans hm)
    exact ⟨_, rfl, hr, hpos, hle⟩
  refine ⟨by simp, by simp, fun hwf owner' howner' ↦ ?_, ?_, rfl, rfl, fun w ↦ .refl _ w,
    fun _ ↦ rfl, fun hbacked ↦ ?_⟩
  · rw [Outstanding.owner_setOwner] at howner'
    obtain rfl := Option.some.inj howner'
    refine (hwf owner howner).withStorages (by rw [List.length_set, hstorages]) fun st hst ↦ ?_
    rw [← hstorages]
    rcases List.mem_or_eq_of_mem_set hst with hst | rfl
    · exact ⟨st, hst, fun h ↦ h, fun h ↦ h⟩
    · refine ⟨storage, List.mem_of_getElem? hj, fun h m hm ↦ ?_, fun h m hm ↦ ?_⟩ <;>
      · obtain rfl := Option.some.inj hm
        exact h mem hmem
  · rw [hset]
    exact heldBy_set hj (by rw [hmem]; rfl)
  · rw [hset, Outstanding.slices_setOwner]
    exact hbacked.set hj (by rw [hmem]; exact Option.some_ne_none mem) hlends

/-- Writing to the room behind the last slice of the buffer. -/
theorem rewrites_behind (o : Outstanding α) {b : OwnedImpl α} (hb : b.WF) {l : List (Slice α)}
    {s : Slice α} (hl : b.slices.toList = l ++ [s]) (offset : ℕ) {bytes : List α}
    (hbytes : bytes.length ≤ s.reservableSize) (w : World α) :
    (s.store w (s.reservable + offset) bytes).2 = w ∧
      Rewrites o b o { b with
        slices := b.slices.setBack (s.store w (s.reservable + offset) bytes).1 } := by
  obtain ⟨s', hstore, hsame, hwf, hdata, hreservable, hs'⟩ :=
    (hb s (by simp [hl])).store_behind w (Nat.le_add_right s.reservable offset) hbytes
  have hset := SliceDeque.setBack_of_concat hl s'
  rw [hstore]
  refine ⟨rfl, rfl, rfl, fun h ↦ h, rfl, rfl, rfl, fun w ↦ ?_, fun w ↦ ?_, fun hbacked ↦ ?_⟩
  · dsimp only
    rw [hset, hl]
    exact (evolves_same hsame hwf w).concat l
  · dsimp only
    rw [hset, hl, contentOf_append, contentOf_append, contentOf_cons, contentOf_cons, hs']
  · exact hbacked.setBack hl hset hsame hreservable

/-- A write through a slice of a reservation is a rewriting. -/
theorem Outstanding.write_spec {o o' : Outstanding α} {b b' : OwnedImpl α} {j offset : ℕ}
    {bytes : List α} {w w' : World α} (hb : b.WF)
    (h : o.write b j offset bytes w = some (o', b', w')) : w' = w ∧ Rewrites o b o' b' := by
  rw [write] at h
  split at h
  · rename_i owner slice storage howner hslice hstorage
    split_ifs at h with hlen
    split at h
    · rename_i block start mem hslicemem hmem
      simp only [Option.some.injEq, Prod.mk.injEq] at h
      obtain ⟨rfl, rfl, rfl⟩ := h
      exact ⟨rfl, rewrites_setOwner howner b hstorage hmem _⟩
    · rename_i block start hslicemem hmem
      dsimp only at h
      split_ifs at h with hroom
      simp only [Option.some.injEq, Prod.mk.injEq] at h
      obtain ⟨rfl, rfl, rfl⟩ := h
      rcases List.eq_nil_or_concat' b.slices.toList with hl | ⟨l, s, hl⟩
      · -- No slice, no memory behind it.
        rw [SliceDeque.back_eq, hl, hslicemem] at hroom
        cases hroom.1
      · rw [SliceDeque.back_of_concat hl] at hroom ⊢
        have hstart : start = s.reservable := by
          have := hslicemem.symm.trans hroom.1
          cases hbase : s.base with
          | none => simp [hbase] at this
          | some block' =>
            rw [hbase, Option.map_some, Option.some.injEq, Prod.mk.injEq] at this
            exact this.2
        subst hstart
        exact rewrites_behind o hb hl offset (by omega) w
    · cases h
  · cases h

/-! ### One step

Each call is an evolution of what it changes, and everything else is in the rest of the inventory.
-/

namespace Pool

variable {ι κ : Type*} [Fintype ι] [Fintype κ]

/-- What holds in every reachable state. -/
structure Valid (st : Pool ι κ α) : Prop where
  /-- All slices are well-formed. -/
  slices : ∀ s ∈ st.inventory.1, s.WF
  /-- So is the free list. -/
  world : st.world.WF
  /-- So are the owners of the reservations. -/
  owners : ∀ k i o owner, st.reservations k = some (i, o) → o.owner = some owner → owner.WF
  /-- No storage is owned twice. -/
  distinct : Distinct (st.inventory.blocks + st.world.freeBlocks) st.world.next

/-- The state with other bytes in the memory of fragments. -/
def withFragments (st : Pool ι κ α) (fragments : ℕ → ℕ → α) : Pool ι κ α :=
  { st with world := { st.world with fragments } }

/-- What a step does to everything there is, the trackers that it registers included. -/
structure Steps (registered : List DrainTracker) (st st' : Pool ι κ α) : Prop where
  /-- Everything evolves, with the trackers that the caller hands in. -/
  evolves : Evolves (st.inventory + slicesOf (registered.map .carrying)) st.world st'.inventory
    st'.world
  /-- The owners are still in order. -/
  owners : ∀ k i o owner, st'.reservations k = some (i, o) → o.owner = some owner → owner.WF

theorem Steps.of_evolves {st st' : Pool ι κ α}
    (h : Evolves st.inventory st.world st'.inventory st'.world)
    (howners : ∀ k i o owner, st'.reservations k = some (i, o) → o.owner = some owner → owner.WF) :
    Steps [] st st' :=
  ⟨by rwa [List.map_nil, slicesOf_nil, add_zero], howners⟩

/-- It does the same whatever bytes are in the memory of fragments. -/
theorem Steps.upToFragments {registered : List DrainTracker} {st st' : Pool ι κ α}
    (h : Steps registered st st') : Steps registered (st.withFragments st'.world.fragments) st' :=
  ⟨h.evolves.upToFragments, h.owners⟩

theorem Valid.withFragments {st : Pool ι κ α} (hst : st.Valid) (fragments : ℕ → ℕ → α) :
    (st.withFragments fragments).Valid :=
  ⟨hst.slices, ⟨hst.world.1, hst.world.2⟩, hst.owners, hst.distinct⟩

/-- A step of this kind keeps the state valid. -/
theorem Valid.of_steps {registered : List DrainTracker} {st st' : Pool ι κ α} (hst : st.Valid)
    (h : Steps registered st st') : st'.Valid where
  slices := by
    refine h.evolves.wf fun s hs ↦ ?_
    rcases Multiset.mem_add.1 hs with hs | hs
    · exact hst.slices s hs
    · obtain ⟨t, -, rfl⟩ := List.mem_map.1 (Multiset.mem_coe.1 hs)
      exact Slice.wf_carrying t
  world := h.evolves.world hst.world
  owners := h.owners
  distinct := by
    have := h.evolves.separate 0 (by
      rw [blocks_add, blocks_carrying, add_zero, zero_add]
      exact hst.distinct)
    rwa [zero_add] at this

theorem valid_init (fragments fresh : ℕ → ℕ → α) : (init fragments fresh : Pool ι κ α).Valid where
  slices s hs := by
    rw [inventory_init] at hs
    exact absurd hs (Multiset.notMem_zero s)
  world := ⟨fun _ h ↦ (nomatch h), Nat.zero_le _⟩
  owners _ _ _ _ h := nomatch h
  distinct := by
    rw [inventory_init]
    exact ⟨Multiset.nodup_zero, fun _ h ↦ absurd h (Multiset.notMem_zero _)⟩

variable [DecidableEq ι] {st : Pool ι κ α}

theorem Valid.buffer (hst : st.Valid) (i : ι) : (st.buffers i).WF := by
  obtain ⟨R, hR, -⟩ := st.exists_inventory_setBuffer i
  intro s hs
  refine hst.slices s ?_
  rw [hR, Prod.fst_add]
  exact Multiset.mem_add.2 (.inr hs)

/-- A call that changes one buffer. -/
theorem Valid.steps_setBuffer (hst : st.Valid) {i : ι} {b : OwnedImpl α} {w : World α}
    (h : Evolves (slicesOf (st.buffers i).slices.toList) st.world (slicesOf b.slices.toList) w) :
    Steps [] st (st.setBuffer i b w) := by
  obtain ⟨R, hR, hupdate⟩ := st.exists_inventory_setBuffer i
  refine .of_evolves ?_ hst.owners
  rw [hR, hupdate]
  exact h.frame R

/-- A call that registers a tracker as well. -/
theorem Valid.steps_register (hst : st.Valid) {i : ι} {b : OwnedImpl α} {w : World α}
    {t : DrainTracker}
    (h : Evolves (slicesOf (st.buffers i).slices.toList + slicesOf [.carrying t]) st.world
      (slicesOf b.slices.toList) w) : Steps [t] st (st.setBuffer i b w) := by
  obtain ⟨R, hR, hupdate⟩ := st.exists_inventory_setBuffer i
  refine ⟨?_, hst.owners⟩
  rw [hR, hupdate, add_assoc]
  exact h.frame R

/-- A call that changes two buffers. -/
theorem Valid.steps_setBuffers (hst : st.Valid) {i j : ι} (hij : i ≠ j) {b b' : OwnedImpl α}
    {w : World α}
    (h : Evolves (slicesOf (st.buffers i).slices.toList + slicesOf (st.buffers j).slices.toList)
      st.world (slicesOf b.slices.toList + slicesOf b'.slices.toList) w) :
    Steps [] st ((st.setBuffer i b w).setBuffer j b' w) := by
  obtain ⟨R, hR, hupdate⟩ := st.exists_inventory_setBuffers hij
  refine .of_evolves ?_ hst.owners
  rw [hR, hupdate]
  exact h.frame R

/-- A call that changes a buffer and one of its reservations. -/
theorem Valid.steps_setReservation [DecidableEq κ] (hst : st.Valid) {i : ι} {k : κ}
    {b : OwnedImpl α} {w : World α} {r : Option (ι × Outstanding α)}
    (h : Evolves (slicesOf (st.buffers i).slices.toList + heldIn (st.reservations k)) st.world
      (slicesOf b.slices.toList + heldIn r) w)
    (hr : ∀ i o owner, r = some (i, o) → o.owner = some owner → owner.WF) :
    Steps [] st ((st.setBuffer i b w).setReservation k r) := by
  obtain ⟨R, hR, hupdate⟩ := st.exists_inventory_setReservation i k
  refine .of_evolves ?_ fun k' i' o owner ho howner ↦ ?_
  · rw [hR, hupdate]
    exact h.frame R
  · rcases eq_or_ne k' k with rfl | hne
    · rw [reservations_setReservation_self] at ho
      exact hr i' o owner ho howner
    · rw [reservations_setReservation_of_ne _ hne] at ho
      exact hst.owners k' i' o owner ho howner

/-- A step that makes a reservation. -/
theorem Valid.steps_reserve [DecidableEq κ] (hst : st.Valid) {i : ι} {k : κ}
    (hk : (st.reservations k).isNone) {o : Outstanding α} {owner : SlicesOwner α} {b : OwnedImpl α}
    {w : World α} (howner : o.owner = some owner)
    (h : Reserves (st.buffers i) st.world o.slices owner b w) :
    Steps [] st ((st.setBuffer i b w).setReservation k (some (i, o))) := by
  refine hst.steps_setReservation ?_ fun i' o' owner' ho howner' ↦ ?_
  · have hnone : (heldIn (st.reservations k) : Inventory α) = 0 := by
      rw [Option.isNone_iff_eq_none.1 hk]
      rfl
    have hheld : heldIn (some (i, o)) = ((0, heldBy owner.ownedStorages) : Inventory α) := by
      rw [← Outstanding.storages_of_owner howner]
      rfl
    rw [hnone, add_zero, hheld]
    exact h.evolves
  · obtain ⟨-, rfl⟩ := Prod.mk.inj (Option.some.inj ho)
    obtain rfl := Option.some.inj (howner.symm.trans howner')
    exact h.ownerWF hst.world

variable [DecidableEq κ]

/-- A commit takes storages from the reservation to the buffer. -/
theorem Valid.steps_commit {i : ι} {k : κ} {n : ℕ} {o : Outstanding α} {owner : SlicesOwner α}
    {b : OwnedImpl α} {w : World α} (hst : st.Valid) (hk : st.reservations k = some (i, o))
    (howner : o.owner = some owner)
    (hcommit : (st.buffers i).commit n o.slices owner st.world = some (b, w)) :
    Steps [] st ((st.setBuffer i b w).setReservation k none) := by
  obtain ⟨-, hevolves⟩ :=
    OwnedImpl.commit_evolves (hst.buffer i) (hst.owners k i o owner hk howner) hcommit
  refine hst.steps_setReservation ?_ fun _ _ _ hnone ↦ (nomatch hnone)
  have hheld : heldIn (st.reservations k) = ((0, heldBy owner.ownedStorages) : Inventory α) := by
    rw [hk, ← Outstanding.storages_of_owner howner]
    rfl
  have hnone : (heldIn (none : Option (ι × Outstanding α)) : Inventory α) = 0 := rfl
  rw [hheld, hnone, add_zero]
  exact hevolves

/-- A reservation that is dropped gives its storages back. -/
theorem Valid.steps_dropReservation {i : ι} {k : κ} {o : Outstanding α} {owner : SlicesOwner α}
    (hst : st.Valid) (hk : st.reservations k = some (i, o)) (howner : o.owner = some owner) :
    Steps [] st { st.setReservation k none with world := owner.destroy st.world } := by
  have hdestroy := SlicesOwner.destroy_evolves (hst.owners k i o owner hk howner) st.world
  have hheld : heldIn (st.reservations k) = ((0, heldBy owner.ownedStorages) : Inventory α) := by
    rw [hk, ← Outstanding.storages_of_owner howner]
    rfl
  have := hst.steps_setReservation (i := i) (k := k) (b := st.buffers i) (r := none)
    (by rw [hheld]; exact hdestroy.frame _) fun _ _ _ hnone ↦ (nomatch hnone)
  rwa [setBuffer, Function.update_eq_self] at this

theorem Valid.steps_write {i : ι} {k : κ} {j offset : ℕ} {bytes : List α} {o o' : Outstanding α}
    {b : OwnedImpl α} {w : World α} (hst : st.Valid) (hk : st.reservations k = some (i, o))
    (hwrite : o.write (st.buffers i) j offset bytes st.world = some (o', b, w)) :
    Steps [] st ((st.setBuffer i b w).setReservation k (some (i, o'))) := by
  obtain ⟨rfl, hrewrites⟩ := Outstanding.write_spec (hst.buffer i) hwrite
  refine hst.steps_setReservation ?_ fun i' o'' owner ho howner ↦ ?_
  · have hheld : (heldIn (some (i, o')) : Inventory α) = heldIn (st.reservations k) := by
      rw [hk, heldIn, heldIn]
      exact congrArg (Prod.mk 0) hrewrites.held
    rw [hheld]
    exact (hrewrites.evolves _).frame_right _
  · obtain ⟨-, rfl⟩ := Prod.mk.inj (Option.some.inj ho)
    exact hrewrites.owner (fun owner howner ↦ hst.owners k i o owner hk howner) owner howner

omit [DecidableEq κ] in
/-- An extracted slice leaves its buffer. -/
theorem Valid.steps_extract {i : ι} {e : Slice α} {b : OwnedImpl α} {w : World α} (hst : st.Valid)
    (hextract : (st.buffers i).extractMutableFrontSlice st.world = some (e, b, w)) :
    Steps [] st { st.setBuffer i b w with extracted := e :: st.extracted } := by
  obtain ⟨R, hR, hupdate⟩ := Ledger.exists_sum_update
    (fun b : OwnedImpl α ↦ slicesOf b.slices.toList) st.buffers i
  have hevolves := OwnedImpl.extractMutableFrontSlice_evolves (hst.buffer i) hextract
  refine .of_evolves ?_ hst.owners
  have := hevolves.frame
    (R + ∑ k, heldIn (st.reservations k) + slicesOf st.extracted)
  have hbefore : st.inventory = R + ∑ k, heldIn (st.reservations k) + slicesOf st.extracted +
      slicesOf (st.buffers i).slices.toList := by
    rw [inventory, hR]
    abel
  have hafter : Pool.inventory { st.setBuffer i b w with extracted := e :: st.extracted } =
      R + ∑ k, heldIn (st.reservations k) + slicesOf st.extracted +
        slicesOf (e :: b.slices.toList) := by
    rw [inventory, setBuffer]
    dsimp only
    rw [hupdate, slicesOf_cons e st.extracted, slicesOf_cons e b.slices.toList]
    abel
  dsimp only
  rw [hbefore, hafter]
  exact this

omit [DecidableEq ι] [DecidableEq κ] in
/-- A slice that was extracted is destroyed. -/
theorem Valid.steps_destroySliceData {n : ℕ} {s : Slice α} (hst : st.Valid)
    (hs : st.extracted[n]? = some s) :
    Steps [] st { st with
      extracted := st.extracted.eraseIdx n
      world := (s.callAndClearDrainTrackersAndCharges st.world).2 } := by
  refine .of_evolves ?_ hst.owners
  have hperm : slicesOf st.extracted = slicesOf (st.extracted.eraseIdx n) + slicesOf [s] := by
    obtain ⟨hn, rfl⟩ := List.getElem?_eq_some_iff.1 hs
    rw [← slicesOf_append]
    exact slicesOf_perm ((List.getElem_cons_eraseIdx_perm hn).symm.trans
      (List.perm_append_singleton _ _).symm)
  have hrelease := (evolves_release s st.world).frame
    (∑ i, slicesOf (st.buffers i).slices.toList + ∑ k, heldIn (st.reservations k) +
      slicesOf (st.extracted.eraseIdx n))
  rw [add_zero, add_assoc, ← hperm] at hrelease
  exact hrelease

/-- Every call but `prepend` of a string leaves the memory of fragments alone. -/
theorem Valid.steps_of_ne_prepend {op : Op ι κ α} {st' : Pool ι κ α} (hst : st.Valid)
    (hop : ∀ i data, op ≠ .prepend i data) (h : step op st = some st') :
    Steps op.registered st st' := by
  cases stepped_of_step h with
  | @add i data b w hlt hadd =>
    exact hst.steps_setBuffer (OwnedImpl.addImpl_spec (hst.buffer i) hadd).evolves
  | @addInstance i j b w hij hadd =>
    exact hst.steps_setBuffer (OwnedImpl.addEach_spec (hst.buffer i) hadd).evolves
  | @addBufferFragment i fragment =>
    exact hst.steps_register (OwnedImpl.addBufferFragment_evolves _ fragment _)
  | @addFragments i fragments n b w hsum hadd =>
    exact hst.steps_setBuffer (OwnedImpl.addFragments_spec (hst.buffer i) hsum hadd).evolves
  | @appendSliceForTest i data =>
    exact hst.steps_setBuffer (OwnedImpl.appendSliceForTest_evolves (hst.buffer i) data _)
  | @prepend i data => exact absurd rfl (hop i data)
  | @prependInstance i j b other w hij hprepend =>
    have hevolves := OwnedImpl.prependInstance_evolves (st.buffers i) (st.buffers j) st.world
    rw [hprepend] at hevolves
    exact hst.steps_setBuffers hij hevolves
  | drain i size => exact hst.steps_setBuffer (OwnedImpl.drainImpl_evolves (hst.buffer i) size _)
  | @move i j b other w hij hmove =>
    exact hst.steps_setBuffers hij (OwnedImpl.move_evolves (hst.buffer i) (hst.buffer j) hmove)
  | @moveLength i j length b other w hij hmove =>
    exact hst.steps_setBuffers hij (OwnedImpl.moveLength_evolves (hst.buffer i) (hst.buffer j)
      hmove)
  | @linearize i size p b w hsize hlinearize =>
    have hmax : size ≤ maxSliceSize := by
      rw [maxSliceSize]
      omega
    exact hst.steps_setBuffer (OwnedImpl.linearize_evolves (hst.buffer i) hmax hlinearize)
  | extractMutableFrontSlice hextract => exact hst.steps_extract hextract
  | addDrainTracker hadd =>
    exact hst.steps_register (OwnedImpl.addDrainTracker_evolves hadd st.world)
  | bindAccount hbind =>
    rw [OwnedImpl.bindAccount] at hbind
    split_ifs at hbind
    obtain rfl := Option.some.inj hbind
    exact hst.steps_setBuffer (.refl _ _)
  | @reserveForRead i k r b w hk hreserve =>
    have hpos : 0 < defaultReadReservationSize := by decide
    obtain ⟨owner, howner, hreserves⟩ := OwnedImpl.reserves_of_reserveWithMaxLength hpos hreserve
    exact hst.steps_reserve (o := .multiple r) hk howner hreserves
  | @reserveWithMaxLength i k maxLength r b w hk hpos hreserve =>
    obtain ⟨owner, howner, hreserves⟩ := OwnedImpl.reserves_of_reserveWithMaxLength hpos hreserve
    exact hst.steps_reserve (o := .multiple r) hk howner hreserves
  | @reserveSingleSlice i k length separateSlice r b w hk hpos hle hreserve =>
    obtain ⟨owner, howner, hreserves⟩ := OwnedImpl.reserves_of_reserveSingleSlice hpos hle hreserve
    exact hst.steps_reserve (o := .single r) hk howner hreserves
  | write hk hwrite => exact hst.steps_write hk hwrite
  | commit hk hle howner hcommit => exact hst.steps_commit hk howner hcommit
  | dropReservation hk howner => exact hst.steps_dropReservation hk howner
  | destroySliceData hslice => exact hst.steps_destroySliceData hslice
  | destroy => exact hst.steps_setBuffer (OwnedImpl.destroy_evolves _ _)

/-- Whatever the step, it is an evolution, up to the memory of fragments. -/
theorem Valid.steps {op : Op ι κ α} {st' : Pool ι κ α} (hst : st.Valid)
    (h : step op st = some st') :
    Steps op.registered (st.withFragments st'.world.fragments) st' := by
  by_cases hop : ∃ i data, op = .prepend i data
  · obtain ⟨i, data, rfl⟩ := hop
    obtain ⟨b, w, hprepend, rfl⟩ := prepend_of_step h
    exact (hst.withFragments w.fragments).steps_setBuffer
      (OwnedImpl.prepend_evolves (hst.buffer i) hprepend)
  · exact (hst.steps_of_ne_prepend (fun i data heq ↦ hop ⟨i, data, heq⟩) h).upToFragments

/-- Every call keeps the state valid. -/
theorem Valid.of_step {op : Op ι κ α} {st' : Pool ι κ α} (hst : st.Valid)
    (h : step op st = some st') : st'.Valid :=
  (hst.withFragments st'.world.fragments).of_steps (hst.steps h)

/-- **Every reachable state is valid.** -/
theorem valid_of_reachable {fragments fresh : ℕ → ℕ → α} {st : Pool ι κ α}
    (hst : Machine.Reachable step (init fragments fresh) st) : st.Valid :=
  Machine.invariant_of_reachable (valid_init fragments fresh)
    (fun _ _ _ hst h ↦ hst.of_step h) hst

end Pool

end TcpServer.Buffer
