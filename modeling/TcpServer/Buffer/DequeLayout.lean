import TcpServer.Lib.Machine
import TcpServer.Buffer.SliceDeque

/-!
# The layout of a deque

`SliceDeque` says what a deque holds; this module keeps what the object consists of: the inline
ring, the external ring once there is one, the pointer `ring_` to one of them, and the three
numbers. Nothing is assumed of these. A subscript of `ring_` outside of the array has no result, so
an operation has a result only if every index it uses is one of a slot.

`Refines d q` connects the layout with the deque of `SliceDeque`, operation by operation
(`emplaceBack_refines` and the others). What a program sees of a set of deques is then what it would
see of plain lists (`layout_refines_list`). A move leaves a deque that is not used again, so the
state forgets it.

A plain list has no first or last element when it is empty, and no entry at an index past its end;
there the operations of the lists have no result, and nothing is said of the deques.

`Refines` is kept by every operation with the world that the deque of `SliceDeque` has, so that no
slice is released which that one does not release. The list semantics of a set of deques is written
down separately (`ListsState.step`), and `Agree` is the simulation relation: the program has seen
the same slices, and each deque is one of the elements of its list.
-/

namespace TcpServer.Buffer

open Machine

variable {α : Type*}

/-- The array that `ring_` points to. -/
inductive RingPointer
  | inlineRing
  | externalRing
deriving DecidableEq

/-- The members of a `SliceDeque`. -/
structure DequeLayout (α : Type*) where
  /-- `inline_ring_`. -/
  inlineRing : List (Slice α)
  /-- `external_ring_`, none for the null pointer. -/
  externalRing : Option (List (Slice α))
  /-- `ring_`. -/
  ring : RingPointer
  /-- `start_`. -/
  start : ℕ := 0
  /-- `size_`. -/
  size : ℕ := 0
  /-- `capacity_`. -/
  capacity : ℕ

/-- Slices that are overwritten or destroyed, one after the other. -/
def releaseAll (slices : List (Slice α)) (w : World α) : World α :=
  slices.foldl (fun w s ↦ (s.callAndClearDrainTrackersAndCharges w).2) w

namespace DequeLayout

/-- `SliceDeque()`. -/
def create : DequeLayout α where
  inlineRing := List.replicate SliceDeque.inlineRingCapacity .empty
  externalRing := none
  ring := .inlineRing
  capacity := SliceDeque.inlineRingCapacity

/-- The array that `ring_` points to, none if there is no such array. -/
def slots (d : DequeLayout α) : Option (List (Slice α)) :=
  match d.ring with
  | .inlineRing => some d.inlineRing
  | .externalRing => d.externalRing

/-- Puts the array back that `ring_` points to. -/
def setSlots (d : DequeLayout α) (slots : List (Slice α)) : DequeLayout α :=
  match d.ring with
  | .inlineRing => { d with inlineRing := slots }
  | .externalRing => { d with externalRing := some slots }

/-- The slice `ring_[index]`. -/
def read (d : DequeLayout α) (index : ℕ) : Option (Slice α) := do
  let slots ← d.slots
  slots[index]?

/-- The move assignment `ring_[index] = std::move(slice)`. -/
def write (d : DequeLayout α) (index : ℕ) (slice : Slice α) (w : World α) :
    Option (DequeLayout α × World α) := do
  let slots ← d.slots
  let old ← slots[index]?
  some (d.setSlots (slots.set index slice), (old.callAndClearDrainTrackersAndCharges w).2)

/-- `internalIndex`: a place in the ring, counted from its start. -/
def internalIndex (d : DequeLayout α) (index : ℕ) : ℕ :=
  let internalIndex := d.start + index
  if internalIndex ≥ d.capacity then internalIndex - d.capacity else internalIndex

/-- The loop of `growRing`, with `n` iterations to go. -/
def growLoop (d : DequeLayout α) (newRing : List (Slice α)) (src dst : ℕ) (w : World α) :
    ℕ → Option (DequeLayout α × List (Slice α) × World α)
  | 0 => some (d, newRing, w)
  | n + 1 => do
    let slots ← d.slots
    let slice ← slots[src]?
    let old ← newRing[dst]?
    growLoop (d.setSlots (slots.set src .empty)) (newRing.set dst slice)
      (if src + 1 = d.capacity then 0 else src + 1) (dst + 1)
      (old.callAndClearDrainTrackersAndCharges w).2 n

/-- `growRing`: a full ring is moved to the front of one of twice its length. -/
def growRing (d : DequeLayout α) (w : World α) : Option (DequeLayout α × World α) :=
  if d.size < d.capacity then some (d, w)
  else do
    let newCapacity := d.capacity * 2
    let (d, newRing, w) ← d.growLoop (List.replicate newCapacity .empty) d.start 0 w d.size
    -- After the swap it is the old external ring that goes out of scope.
    some ({ d with
        externalRing := some newRing, ring := .externalRing, start := 0, capacity := newCapacity },
      releaseAll (d.externalRing.getD []).reverse w)

/-- `emplace_back`. -/
def emplaceBack (d : DequeLayout α) (slice : Slice α) (w : World α) :
    Option (DequeLayout α × World α) := do
  let (d, w) ← d.growRing w
  let index := d.internalIndex d.size
  let (d, w) ← d.write index slice w
  some ({ d with size := d.size + 1 }, w)

/-- `emplace_front`. -/
def emplaceFront (d : DequeLayout α) (slice : Slice α) (w : World α) :
    Option (DequeLayout α × World α) := do
  let (d, w) ← d.growRing w
  let start := if d.start = 0 then d.capacity - 1 else d.start - 1
  let (d, w) ← { d with start }.write start slice w
  some ({ d with size := d.size + 1 }, w)

/-- `front`. -/
def front (d : DequeLayout α) : Option (Slice α) := d.read d.start

/-- For an empty deque `size_ - 1` wraps around. -/
def back (d : DequeLayout α) : Option (Slice α) :=
  if d.size = 0 then none else d.read (d.internalIndex (d.size - 1))

/-- `operator[]`. -/
def get (d : DequeLayout α) (i : ℕ) : Option (Slice α) := d.read (d.internalIndex i)

/-- `pop_front`. -/
def popFront (d : DequeLayout α) (w : World α) : Option (DequeLayout α × World α) :=
  if d.size = 0 then some (d, w)
  else do
    let (d, w) ← d.write d.start .empty w
    let start := d.start + 1
    some ({ d with size := d.size - 1, start := if start = d.capacity then 0 else start }, w)

/-- `pop_back`. -/
def popBack (d : DequeLayout α) (w : World α) : Option (DequeLayout α × World α) :=
  if d.size = 0 then some (d, w)
  else do
    let (d, w) ← d.write (d.internalIndex (d.size - 1)) .empty w
    some ({ d with size := d.size - 1 }, w)

/-- The slices that a `ConstIterator` at `index` visits on its way to `end()`. -/
def iterateFrom (d : DequeLayout α) : ℕ → ℕ → Option (List (Slice α))
  | 0, _ => none
  | fuel + 1, index =>
    if index ≠ d.size then do
      let slice ← d.get index
      let rest ← d.iterateFrom fuel (index + 1)
      some (slice :: rest)
    else some []

/-- A range-based `for` loop. -/
def iterate (d : DequeLayout α) : Option (List (Slice α)) := d.iterateFrom (d.size + 1) 0

/-- `SliceDeque(SliceDeque&&)`. -/
def moveConstruct (rhs : DequeLayout α) : DequeLayout α :=
  { rhs with ring := if rhs.externalRing.isSome then .externalRing else .inlineRing }

/-- `operator=(SliceDeque&&)`: the slots of the inline ring are overwritten one by one, and then the
external ring is replaced. -/
def moveAssign (d rhs : DequeLayout α) (w : World α) : DequeLayout α × World α :=
  (rhs.moveConstruct, releaseAll (d.externalRing.getD []).reverse (releaseAll d.inlineRing w))

end DequeLayout

/-! ### The layout of a deque that keeps its invariant

The pointer points to an array that is as long as the capacity says, and the inline ring has its
length whether or not it is used. That is enough for every subscript within the capacity to be one
of a slot.
-/

/-- `ring_` points to `ring`, and there is nothing in the inline ring once it is not in use. -/
structure UsesRing (d : DequeLayout α) (ring : List (Slice α)) : Prop where
  /-- The slots are those that `ring_` points to. -/
  slots : d.slots = some ring
  /-- The capacity is their number. -/
  capacity : d.capacity = ring.length
  /-- The inline ring has the length of its type. -/
  length_inlineRing : d.inlineRing.length = SliceDeque.inlineRingCapacity
  /-- Once the external ring is used, the slots of the inline one are vacant. -/
  unused : d.ring = .externalRing →
    d.inlineRing = List.replicate SliceDeque.inlineRingCapacity .empty
  /-- The external ring is used as soon as there is one. -/
  ring_iff : d.ring = .externalRing ↔ d.externalRing.isSome

/-- The layout is that of `q`. -/
structure Refines (d : DequeLayout α) (q : SliceDeque α) : Prop extends UsesRing d q.ring where
  /-- The ring starts at the same slot. -/
  start : d.start = q.start
  /-- It has the same number of elements. -/
  size : d.size = q.size

namespace DequeLayout

@[simp] theorem slots_setSlots (d : DequeLayout α) (l : List (Slice α)) :
    (d.setSlots l).slots = some l := by
  rcases d with ⟨inlineRing, externalRing, ring, _, _, _⟩
  cases ring <;> rfl

@[simp] theorem setSlots_setSlots (d : DequeLayout α) (l l' : List (Slice α)) :
    (d.setSlots l).setSlots l' = d.setSlots l' := by
  rcases d with ⟨inlineRing, externalRing, ring, _, _, _⟩
  cases ring <;> rfl

@[simp] theorem start_setSlots (d : DequeLayout α) (l : List (Slice α)) :
    (d.setSlots l).start = d.start := by
  rcases d with ⟨inlineRing, externalRing, ring, _, _, _⟩
  cases ring <;> rfl

@[simp] theorem size_setSlots (d : DequeLayout α) (l : List (Slice α)) :
    (d.setSlots l).size = d.size := by
  rcases d with ⟨inlineRing, externalRing, ring, _, _, _⟩
  cases ring <;> rfl

@[simp] theorem capacity_setSlots (d : DequeLayout α) (l : List (Slice α)) :
    (d.setSlots l).capacity = d.capacity := by
  rcases d with ⟨inlineRing, externalRing, ring, _, _, _⟩
  cases ring <;> rfl

theorem setSlots_of_slots {d : DequeLayout α} {l : List (Slice α)} (h : d.slots = some l) :
    d.setSlots l = d := by
  rcases d with ⟨inlineRing, externalRing, ring, _, _, _⟩
  cases ring
  · obtain rfl : inlineRing = l := Option.some.inj h
    rfl
  · obtain rfl : externalRing = some l := h
    rfl

end DequeLayout

namespace UsesRing

variable {d : DequeLayout α} {ring : List (Slice α)}

/-- Moving the ends leaves the slots alone. -/
theorem move (h : UsesRing d ring) (start size : ℕ) : UsesRing { d with start, size } ring :=
  ⟨h.slots, h.capacity, h.length_inlineRing, h.unused, h.ring_iff⟩

/-- A slot is read by its index. -/
theorem read (h : UsesRing d ring) {index : ℕ} (hindex : index < ring.length) :
    d.read index = some (ring.getD index .empty) := by
  rw [DequeLayout.read, h.slots, List.getD_eq_getElem?_getD, List.getElem?_eq_getElem hindex]
  exact List.getElem?_eq_getElem hindex

theorem setSlots (h : UsesRing d ring) {ring' : List (Slice α)}
    (hlen : ring'.length = ring.length) :
    UsesRing (d.setSlots ring') ring' := by
  obtain ⟨hslots, hcapacity, hinline, hunused, hiff⟩ := h
  rcases d with ⟨inlineRing, externalRing, pointer, _, _, _⟩
  cases pointer
  · obtain rfl : inlineRing = ring := Option.some.inj hslots
    exact ⟨rfl, hcapacity.trans hlen.symm, hlen.trans hinline, fun h ↦ (nomatch h), hiff⟩
  · exact ⟨rfl, hcapacity.trans hlen.symm, hinline, hunused, fun _ ↦ rfl, fun _ ↦ rfl⟩

/-- A slot is overwritten, which releases what it held, and nothing else is touched. -/
theorem write (h : UsesRing d ring) {index : ℕ} (hindex : index < ring.length) (s : Slice α)
    (w : World α) :
    ∃ d', d.write index s w =
        some (d', ((ring.getD index .empty).callAndClearDrainTrackersAndCharges w).2) ∧
      UsesRing d' (ring.set index s) ∧ d'.start = d.start ∧ d'.size = d.size := by
  refine ⟨d.setSlots (ring.set index s), ?_, h.setSlots List.length_set, d.start_setSlots _,
    d.size_setSlots _⟩
  have hget := List.getElem?_eq_getElem hindex
  simp only [DequeLayout.write, h.slots, Option.bind_eq_bind, Option.bind_some, hget,
    List.getD_eq_getElem?_getD, Option.getD_some]

end UsesRing

namespace Refines

variable {d : DequeLayout α} {q : SliceDeque α}

/-- A new deque is empty. -/
theorem create : Refines (.create : DequeLayout α) .empty where
  slots := rfl
  start := rfl
  size := rfl
  capacity := by rw [SliceDeque.empty, List.length_replicate]; rfl
  length_inlineRing := List.length_replicate
  unused := fun h ↦ nomatch h
  ring_iff := ⟨fun h ↦ (nomatch h), fun h ↦ (nomatch h)⟩

/-- Both compute the same place. -/
theorem internalIndex (h : Refines d q) (i : ℕ) : d.internalIndex i = q.internalIndex i := by
  rw [DequeLayout.internalIndex, h.start, h.capacity]
  rfl

end Refines

/-! ### Growing

Growing is the only operation with a loop. The old slots are left vacant one by one, so that the old
ring goes out of scope without a release.
-/

theorem releaseAll_replicate_empty (n : ℕ) (w : World α) :
    releaseAll (List.replicate n .empty) w = w := by
  induction n with
  | zero => rfl
  | succ n ih =>
    rw [List.replicate_succ, releaseAll, List.foldl_cons, SliceDeque.release_empty]
    exact ih

/-- **The loop of `growRing`.** When it has moved `i` slices, `l.take i` are in front of the new
ring, and in the old one they have left empty slices behind. -/
theorem DequeLayout.growLoop_eq (d : DequeLayout α) {l : List (Slice α)} {start : ℕ}
    (hstart : start < l.length) (hcapacity : d.capacity = l.length) (w : World α) {n i : ℕ}
    (hn : i + n ≤ l.length) {ring : List (Slice α)}
    (hring : ring.rotate start = List.replicate i .empty ++ l.drop i) :
    ∃ ring', ring'.rotate start = List.replicate (i + n) .empty ++ l.drop (i + n) ∧
      (d.setSlots ring).growLoop (l.take i ++ List.replicate (l.length * 2 - i) .empty)
          (Ring.wrap l.length (start + i)) i w n =
        some (d.setSlots ring',
          l.take (i + n) ++ List.replicate (l.length * 2 - (i + n)) .empty, w) := by
  induction n generalizing i ring with
  | zero => exact ⟨ring, hring, rfl⟩
  | succ n ih =>
    have hlen : ring.length = l.length := by
      rw [← List.length_rotate ring start, hring, List.length_append, List.length_replicate,
        List.length_drop]
      omega
    have hi : i < l.length := by omega
    -- The slot that is read has not been moved yet.
    have hslot : ring[Ring.wrap l.length (start + i)]? = some l[i] := by
      rw [← hlen, Ring.getElem?_wrap (by omega) (by omega), hring,
        List.getElem?_append_right (by rw [List.length_replicate]), List.length_replicate,
        Nat.sub_self, List.getElem?_drop, Nat.add_zero, List.getElem?_eq_getElem hi]
    have hring' : (ring.set (Ring.wrap l.length (start + i)) .empty).rotate start =
        List.replicate (i + 1) .empty ++ l.drop (i + 1) := by
      rw [← hlen, Ring.rotate_set_wrap (by omega) (by omega), hring,
        List.set_append_right _ _ (by rw [List.length_replicate]), List.length_replicate,
        Nat.sub_self, List.drop_eq_getElem_cons hi, List.set_cons_zero, List.replicate_succ',
        List.append_assoc, List.singleton_append]
    have htake : (l.take i).length = i := List.length_take_of_le (by omega)
    obtain ⟨m, hm⟩ : ∃ m, l.length * 2 - i = m + 1 := Nat.exists_eq_add_one.2 (by omega)
    have hnew : (l.take i ++ List.replicate (l.length * 2 - i) (.empty : Slice α))[i]? =
        some .empty := by
      rw [List.getElem?_append_right (by omega), htake, Nat.sub_self, hm, List.replicate_succ,
        List.getElem?_cons_zero]
    have hset : (l.take i ++ List.replicate (l.length * 2 - i) (.empty : Slice α)).set i l[i] =
        l.take (i + 1) ++ List.replicate (l.length * 2 - (i + 1)) .empty := by
      have hrest : l.length * 2 - (i + 1) = m := by omega
      rw [List.set_append_right _ _ (by omega), htake, Nat.sub_self, hm, List.replicate_succ,
        List.set_cons_zero, hrest, List.take_add_one, List.getElem?_eq_getElem hi,
        Option.toList_some, List.append_assoc, List.singleton_append]
    obtain ⟨ring'', hring'', hloop⟩ := ih (i := i + 1) (by omega) hring'
    have hcount : i + 1 + n = i + (n + 1) := by omega
    rw [hcount] at hring'' hloop
    refine ⟨ring'', hring'', ?_⟩
    simp only [DequeLayout.growLoop, slots_setSlots, hslot, hnew, Option.bind_eq_bind,
      Option.bind_some, setSlots_setSlots, capacity_setSlots, hcapacity, hset,
      SliceDeque.release_empty]
    rw [Ring.wrap_add_succ hstart hi]
    exact hloop

namespace Refines

variable {d : DequeLayout α} {q : SliceDeque α}

/-- The inline ring is vacant when the slots are, whether it is in use or not. -/
theorem inlineRing_emptied (h : Refines d q) :
    (d.setSlots (List.replicate q.ring.length .empty)).inlineRing =
      List.replicate SliceDeque.inlineRingCapacity .empty := by
  rcases hr : d.ring with _ | _
  · have hring : d.inlineRing = q.ring := by
      have hslots := h.slots
      rw [DequeLayout.slots, hr] at hslots
      exact Option.some.inj hslots
    rw [DequeLayout.setSlots, hr, ← h.length_inlineRing, hring]
  · rw [DequeLayout.setSlots, hr]
    exact h.unused hr

/-- An external ring of vacant slots is destroyed without a call. -/
theorem release_emptied (h : Refines d q) (w : World α) :
    releaseAll ((d.setSlots (List.replicate q.ring.length .empty)).externalRing.getD []).reverse w =
      w := by
  rcases hr : d.ring with _ | _
  · have hnone : d.externalRing = none := by
      rw [← Option.not_isSome_iff_eq_none, ← h.ring_iff, hr]
      rintro ⟨⟩
    rw [DequeLayout.setSlots, hr, hnone]
    rfl
  · rw [DequeLayout.setSlots, hr, Option.getD_some, List.reverse_replicate,
      releaseAll_replicate_empty]

/-- A full ring is moved to the front of one that is twice as long. -/
theorem growRing (h : Refines d q) (w : World α) :
    ∃ d', d.growRing w = some (d', w) ∧ Refines d' q.growRing := by
  by_cases hlt : d.size < d.capacity
  · have hlt' : q.size < q.capacity := by
      rwa [h.size, h.capacity] at hlt
    rw [DequeLayout.growRing, if_pos hlt, SliceDeque.growRing, dif_pos hlt']
    exact ⟨d, rfl, h⟩
  · have hfull : q.size = q.ring.length := by
      have := q.size_le
      rw [h.size, h.capacity] at hlt
      omega
    have hstart := q.start_lt
    have hlen : (q.ring.rotate q.start).length = q.ring.length := List.length_rotate ..
    obtain ⟨ring, hring, hloop⟩ := d.growLoop_eq (l := q.ring.rotate q.start) (hlen.symm ▸ hstart)
      (h.capacity.trans hlen.symm) w (n := q.size) (i := 0) (by omega)
      (show q.ring.rotate q.start = _ from rfl)
    have hwrap : Ring.wrap q.ring.length (q.start + 0) = q.start := by
      rw [Ring.wrap, if_neg (by omega), Nat.add_zero]
    rw [hlen, hwrap, Nat.zero_add q.size, DequeLayout.setSlots_of_slots h.slots, ← h.size,
      ← h.start, ← h.capacity, List.take_zero, List.nil_append, Nat.sub_zero] at hloop
    -- Every slot of the old ring has been left empty.
    have hempty : ring = List.replicate q.ring.length .empty := by
      rw [Nat.zero_add, hfull, List.drop_of_length_le (by omega), List.append_nil] at hring
      exact List.rotate_injective q.start (hring.trans (List.rotate_replicate _ _ _).symm)
    have hinline : (d.setSlots ring).inlineRing =
        List.replicate SliceDeque.inlineRingCapacity .empty := by
      rw [hempty]
      exact h.inlineRing_emptied
    have hold : releaseAll ((d.setSlots ring).externalRing.getD []).reverse w = w := by
      rw [hempty]
      exact h.release_emptied w
    have hgrow : ¬ q.size < q.capacity := by
      rw [hfull]
      exact Nat.lt_irrefl _
    have hnew : q.growRing.ring = (q.ring.rotate d.start).take d.size ++
        List.replicate (d.capacity * 2 - d.size) .empty := by
      rw [SliceDeque.growRing, dif_neg hgrow, h.size, h.capacity, h.start]
      dsimp only
      rw [Ring.walk_eq_take _ hstart q.size_le]
      rfl
    simp only [DequeLayout.growRing, if_neg hlt, hloop, Option.bind_eq_bind, Option.bind_some, hold]
    refine ⟨_, rfl, ⟨?_, ?_, ?_, ?_, ?_⟩, ?_, ?_⟩
    · exact congrArg some hnew.symm
    · show d.capacity * 2 = _
      rw [hnew, List.length_append, List.length_take, List.length_replicate, List.length_rotate,
        h.capacity, h.size]
      omega
    · rw [hinline, List.length_replicate]
    · exact fun _ ↦ hinline
    · exact ⟨fun _ ↦ rfl, fun _ ↦ rfl⟩
    · rw [SliceDeque.growRing, dif_neg hgrow]
    · rw [DequeLayout.size_setSlots, SliceDeque.size_growRing, h.size]

/-! ### The operations

Each operation is the one of `SliceDeque`, on the layout and on the world.
-/

theorem emplaceBack (h : Refines d q) (s : Slice α) (w : World α) :
    ∃ d', d.emplaceBack s w = some (d', (q.emplaceBack s w).2) ∧
      Refines d' (q.emplaceBack s w).1 := by
  obtain ⟨d₁, hgrow, h₁⟩ := h.growRing w
  have hindex : d₁.internalIndex d₁.size < q.growRing.ring.length := by
    have hstart := q.growRing.start_lt
    have hlt : q.growRing.size < q.growRing.ring.length := q.size_lt_growRing
    rw [h₁.internalIndex, h₁.size]
    exact Ring.wrap_lt (by rw [SliceDeque.capacity]; omega)
  obtain ⟨d₂, hwrite, h₂, hstart, hsize⟩ := h₁.write hindex s w
  rw [h₁.internalIndex, h₁.size] at h₂ hwrite
  simp only [DequeLayout.emplaceBack, hgrow, Option.bind_eq_bind, Option.bind_some,
    h₁.internalIndex, h₁.size, hwrite]
  exact ⟨_, rfl, h₂.move _ _, hstart.trans h₁.start, congrArg (· + 1) (hsize.trans h₁.size)⟩

theorem emplaceFront (h : Refines d q) (s : Slice α) (w : World α) :
    ∃ d', d.emplaceFront s w = some (d', (q.emplaceFront s w).2) ∧
      Refines d' (q.emplaceFront s w).1 := by
  obtain ⟨d₁, hgrow, h₁⟩ := h.growRing w
  have hstart : (if d₁.start = 0 then d₁.capacity - 1 else d₁.start - 1) =
      (q.emplaceFront s w).1.start := by
    rw [h₁.start, h₁.capacity]
    rfl
  have hindex := (q.emplaceFront s w).1.start_lt
  have hlen : (q.emplaceFront s w).1.ring.length = q.growRing.ring.length := List.length_set
  rw [hlen] at hindex
  obtain ⟨d₂, hwrite, h₂, hstart₂, hsize⟩ :=
    (h₁.move (q.emplaceFront s w).1.start d₁.size).write hindex s w
  simp only [DequeLayout.emplaceFront, hgrow, Option.bind_eq_bind, Option.bind_some, hstart, hwrite]
  exact ⟨_, rfl, h₂.move _ _, hstart₂, congrArg (· + 1) (hsize.trans h₁.size)⟩

theorem popFront (h : Refines d q) (w : World α) :
    ∃ d', d.popFront w = some (d', (q.popFront w).2) ∧ Refines d' (q.popFront w).1 := by
  by_cases hsize : q.size = 0
  · rw [DequeLayout.popFront, if_pos (h.size.trans hsize), SliceDeque.popFront, dif_pos hsize]
    exact ⟨d, rfl, h⟩
  · obtain ⟨d₁, hwrite, h₁, hstart₁, hsize₁⟩ := h.write q.start_lt .empty w
    have hstart : (if d₁.start + 1 = d₁.capacity then 0 else d₁.start + 1) =
        if q.start + 1 = q.capacity then 0 else q.start + 1 := by
      rw [hstart₁, h₁.capacity, h.start, List.length_set]
      rfl
    simp only [DequeLayout.popFront, if_neg (h.size ▸ hsize), Option.bind_eq_bind, h.start, hwrite,
      Option.bind_some, hstart]
    rw [SliceDeque.popFront, dif_neg hsize]
    exact ⟨_, rfl, h₁.move _ _, rfl, congrArg (· - 1) (hsize₁.trans h.size)⟩

theorem popBack (h : Refines d q) (w : World α) :
    ∃ d', d.popBack w = some (d', (q.popBack w).2) ∧ Refines d' (q.popBack w).1 := by
  by_cases hsize : q.size = 0
  · rw [DequeLayout.popBack, if_pos (h.size.trans hsize), SliceDeque.popBack, dif_pos hsize]
    exact ⟨d, rfl, h⟩
  · have hindex : q.internalIndex (q.size - 1) < q.ring.length := by
      have hstart := q.start_lt
      have hle := q.size_le
      exact Ring.wrap_lt (by rw [SliceDeque.capacity]; omega)
    obtain ⟨d₁, hwrite, h₁, hstart₁, hsize₁⟩ := h.write hindex .empty w
    simp only [DequeLayout.popBack, h.size, if_neg hsize, Option.bind_eq_bind, h.internalIndex,
      hwrite, Option.bind_some]
    rw [SliceDeque.popBack, dif_neg hsize]
    exact ⟨_, rfl, h₁.move _ _, hstart₁.trans h.start, congrArg (· - 1) (hsize₁.trans h.size)⟩

/-- The pointer `ring_` that a move makes is the one it would copy. -/
theorem moveConstruct (h : Refines d q) : Refines d.moveConstruct q := by
  have hring : (if d.externalRing.isSome then .externalRing else .inlineRing) = d.ring := by
    split_ifs with hsome
    · exact (h.ring_iff.2 hsome).symm
    · rcases hr : d.ring with _ | _
      · rfl
      · exact absurd (h.ring_iff.1 hr) hsome
  have hmove : d.moveConstruct = d := by
    rw [DequeLayout.moveConstruct, hring]
  exact hmove.symm ▸ h

/-- Writing through the reference `operator[](i)`. -/
theorem setAt (h : Refines d q) {i : ℕ} (hi : i < q.size) (s : Slice α) (w : World α) :
    ∃ d' w' q', d.write (d.internalIndex i) s w = some (d', w') ∧ Refines d' q' ∧
      q'.toList = q.toList.set i s := by
  have hstart := q.start_lt
  have hle := q.size_le
  have hindex : q.internalIndex i < q.ring.length :=
    Ring.wrap_lt (by rw [SliceDeque.capacity]; omega)
  obtain ⟨d₁, hwrite, h₁, hstart₁, hsize₁⟩ := h.write hindex s w
  have hrotate : (q.ring.set (q.internalIndex i) s).rotate q.start =
      q.toList.set i s ++
        List.replicate ((q.ring.set (q.internalIndex i) s).length - q.size) .empty := by
    rw [SliceDeque.internalIndex, SliceDeque.capacity]
    rw [Ring.rotate_set_wrap hstart (by omega), q.rotate_eq,
      List.set_append_left _ _ (by rwa [SliceDeque.length_toList]), List.length_set,
      SliceDeque.capacity]
  have hlen : (q.toList.set i s).length = q.size := by
    rw [List.length_set, SliceDeque.length_toList]
  let q' : SliceDeque α :=
    { ring := q.ring.set (q.internalIndex i) s
      start := q.start
      size := q.size
      start_lt := List.length_set.symm ▸ hstart
      size_le := List.length_set.symm ▸ hle
      vacant := SliceDeque.vacant_of_rotate_eq hlen hrotate }
  rw [h.internalIndex]
  exact ⟨d₁, _, q', hwrite, ⟨h₁, hstart₁.trans h.start, hsize₁.trans h.size⟩,
    SliceDeque.toList_of_rotate_eq (q := q') hlen hrotate⟩

/-! ### Reading

What is read is an element of the list, or a vacant slot behind the last one.
-/

theorem get (h : Refines d q) {i : ℕ} (hi : i < q.capacity) : d.get i = some (q.get i) := by
  have hstart := q.start_lt
  rw [SliceDeque.capacity] at hi
  rw [DequeLayout.get, h.internalIndex]
  exact h.read (Ring.wrap_lt (by rw [SliceDeque.capacity]; omega))

theorem get_eq_getElem? (h : Refines d q) {i : ℕ} (hi : i < q.size) : d.get i = q.toList[i]? := by
  rw [h.get (Nat.lt_of_lt_of_le hi q.size_le), SliceDeque.getElem?_toList hi]

theorem get_vacant (h : Refines d q) {i : ℕ} (hi : q.size ≤ i) (hi' : i < q.capacity) :
    d.get i = some .empty := by
  have hget : q.get i = (q.ring.rotate q.start).getD i .empty := Ring.getD_wrap q.start_lt hi' _
  rw [h.get hi', hget, q.rotate_eq, List.getD_eq_getElem?_getD, List.getElem?_append_right
    (by rwa [SliceDeque.length_toList]), List.getElem?_replicate]
  split <;> rfl

theorem front (h : Refines d q) (hsize : q.size ≠ 0) : d.front = q.toList.head? := by
  have hstart := q.start_lt
  have hindex : d.internalIndex 0 = d.start := by
    rw [DequeLayout.internalIndex, h.start, h.capacity, Nat.add_zero]
    exact if_neg (by omega)
  rw [DequeLayout.front, ← hindex, List.head?_eq_getElem?,
    ← h.get_eq_getElem? (Nat.pos_of_ne_zero hsize)]
  rfl

/-- The last element, as `size_ - 1` does not wrap around for a deque that is not empty. -/
theorem back (h : Refines d q) (hsize : q.size ≠ 0) : d.back = q.toList.getLast? := by
  rw [DequeLayout.back, if_neg (h.size ▸ hsize), List.getLast?_eq_getElem?,
    SliceDeque.length_toList, ← h.get_eq_getElem? (by omega), h.size]
  rfl

theorem iterateFrom (h : Refines d q) {fuel index : ℕ} (hindex : index ≤ q.size)
    (hfuel : q.size - index < fuel) : d.iterateFrom fuel index = some (q.toList.drop index) := by
  induction fuel generalizing index with
  | zero => omega
  | succ fuel ih =>
    rw [DequeLayout.iterateFrom, h.size]
    split_ifs with hmore
    · have hlt : index < q.toList.length := by
        rw [SliceDeque.length_toList]
        omega
      rw [h.get_eq_getElem? (by omega), List.getElem?_eq_getElem hlt, ih (by omega) (by omega),
        List.drop_eq_getElem_cons hlt]
      rfl
    · rw [List.drop_of_length_le (by rw [SliceDeque.length_toList]; omega)]

/-- A `for` loop visits the elements in order. -/
theorem iterate (h : Refines d q) : d.iterate = some q.toList := by
  rw [DequeLayout.iterate, h.size, h.iterateFrom (Nat.zero_le _) (by omega), List.drop_zero]

end Refines

/-! ### Programs over a set of deques

A program makes deques, applies operations to them and moves them, and it sees the slices that the
operations return or visit. A deque is known by a number.
-/

/-- What is done with one deque. `write` is an assignment through the reference from
`operator[]`. -/
inductive DequeOp (α : Type*)
  | emplaceBack (slice : Slice α)
  | emplaceFront (slice : Slice α)
  | popFront
  | popBack
  | front
  | back
  | get (i : ℕ)
  | write (i : ℕ) (slice : Slice α)
  | iterate

/-- The operations of a program with several deques. -/
inductive DequesOp (α : Type*)
  | create (id : ℕ)
  | on (id : ℕ) (op : DequeOp α)
  | moveConstruct (id rhs : ℕ)
  | moveAssign (id rhs : ℕ)

/-- The slices that the operation shows, and the deque after it. -/
def DequeOp.onLayout (d : DequeLayout α) (w : World α) :
    DequeOp α → Option (List (Slice α) × DequeLayout α × World α)
  | emplaceBack slice => (d.emplaceBack slice w).map ([], ·)
  | emplaceFront slice => (d.emplaceFront slice w).map ([], ·)
  | popFront => (d.popFront w).map ([], ·)
  | popBack => (d.popBack w).map ([], ·)
  | front => d.front.map ([·], d, w)
  | back => d.back.map ([·], d, w)
  | get i => (d.get i).map ([·], d, w)
  | write i slice => (d.write (d.internalIndex i) slice w).map ([], ·)
  | iterate => d.iterate.map (·, d, w)

/-- The same on a list. -/
def DequeOp.onList (l : List (Slice α)) : DequeOp α → Option (List (Slice α) × List (Slice α))
  | emplaceBack slice => some ([], l ++ [slice])
  | emplaceFront slice => some ([], slice :: l)
  | popFront => some ([], l.tail)
  | popBack => some ([], l.dropLast)
  | front => l.head?.map ([·], l)
  | back => l.getLast?.map ([·], l)
  | get i => l[i]?.map ([·], l)
  | write i slice => if i < l.length then some ([], l.set i slice) else none
  | iterate => some (l, l)

/-- The deques of a program, and what it has seen of them. -/
structure DequesState (α : Type*) where
  /-- The deques by their numbers. -/
  deques : ℕ → Option (DequeLayout α) := fun _ ↦ none
  /-- What the slices have in memory, and what has been called. -/
  world : World α
  /-- The slices seen, operation by operation. -/
  seen : List (List (Slice α)) := []

/-- The same program over lists. -/
structure ListsState (α : Type*) where
  /-- The lists by their numbers. -/
  lists : ℕ → Option (List (Slice α)) := fun _ ↦ none
  /-- The slices seen, operation by operation. -/
  seen : List (List (Slice α)) := []

/-- An object is made where there is none, and a deque is not moved to itself. -/
def DequesState.step (op : DequesOp α) (st : DequesState α) : Option (DequesState α) :=
  match op with
  | .create id =>
    if st.deques id = none then
      some { st with deques := Function.update st.deques id (some .create) }
    else none
  | .on id op => do
    let d ← st.deques id
    let (shown, d, world) ← op.onLayout d st.world
    some { deques := Function.update st.deques id (some d), world, seen := st.seen ++ [shown] }
  | .moveConstruct id rhs => do
    let d ← st.deques rhs
    if st.deques id = none then
      some { st with
        deques := Function.update (Function.update st.deques rhs none) id (some d.moveConstruct) }
    else none
  | .moveAssign id rhs => do
    let d ← st.deques id
    let d' ← st.deques rhs
    if id ≠ rhs then
      let (d, world) := d.moveAssign d' st.world
      some { st with
        deques := Function.update (Function.update st.deques rhs none) id (some d), world }
    else none

/-- The same operation on the lists: a move takes the list from the one number to the other. -/
def ListsState.step (op : DequesOp α) (st : ListsState α) : Option (ListsState α) :=
  match op with
  | .create id =>
    if st.lists id = none then some { st with lists := Function.update st.lists id (some []) }
      else none
  | .on id op => do
    let l ← st.lists id
    let (shown, l) ← op.onList l
    some { lists := Function.update st.lists id (some l), seen := st.seen ++ [shown] }
  | .moveConstruct id rhs => do
    let l ← st.lists rhs
    if st.lists id = none then
      some { st with lists := Function.update (Function.update st.lists rhs none) id (some l) }
    else none
  | .moveAssign id rhs => do
    let _ ← st.lists id
    let l ← st.lists rhs
    if id ≠ rhs then
      some { st with lists := Function.update (Function.update st.lists rhs none) id (some l) }
    else none

/-! ### Deques and lists

The run over lists is given, and the run over deques is constructed along with it: wherever the
lists have a next step, so have the deques.
-/

/-- The layout is that of a deque of these elements. -/
def Represents (d : DequeLayout α) (l : List (Slice α)) : Prop :=
  ∃ q : SliceDeque α, Refines d q ∧ q.toList = l

theorem size_ne_zero_of_isSome {q : SliceDeque α} {shown : Slice α} {o : Option (Slice α)}
    (ho : o = some shown) (hnil : q.toList = [] → o = none) : q.size ≠ 0 := by
  intro hsize
  rw [hnil (List.eq_nil_of_length_eq_zero (by rw [SliceDeque.length_toList, hsize]))] at ho
  exact nomatch ho

/-- **One operation** on a deque shows what it shows on the list. -/
theorem DequeOp.onLayout_represents {d : DequeLayout α} {l l' shown : List (Slice α)}
    (h : Represents d l) {op : DequeOp α} (hop : op.onList l = some (shown, l')) (w : World α) :
    ∃ d' w', op.onLayout d w = some (shown, d', w') ∧ Represents d' l' := by
  obtain ⟨q, hq, rfl⟩ := h
  cases op with
  | emplaceBack slice =>
    obtain ⟨rfl, rfl⟩ := Prod.mk.inj (Option.some.inj hop)
    obtain ⟨d', hd', hq'⟩ := hq.emplaceBack slice w
    exact ⟨d', _, by rw [onLayout, hd']; rfl, _, hq', SliceDeque.toList_emplaceBack q slice w⟩
  | emplaceFront slice =>
    obtain ⟨rfl, rfl⟩ := Prod.mk.inj (Option.some.inj hop)
    obtain ⟨d', hd', hq'⟩ := hq.emplaceFront slice w
    exact ⟨d', _, by rw [onLayout, hd']; rfl, _, hq', SliceDeque.toList_emplaceFront q slice w⟩
  | popFront =>
    obtain ⟨rfl, rfl⟩ := Prod.mk.inj (Option.some.inj hop)
    obtain ⟨d', hd', hq'⟩ := hq.popFront w
    refine ⟨d', _, by rw [onLayout, hd']; rfl, _, hq', ?_⟩
    rcases hl : q.toList with _ | ⟨s, l⟩
    -- on an empty deque `pop_front` does nothing
    · have hsize : q.size = 0 := SliceDeque.size_eq hl
      rw [SliceDeque.popFront, dif_pos hsize, hl]
      rfl
    · exact (SliceDeque.popFront_of_cons hl w).1
  | popBack =>
    obtain ⟨rfl, rfl⟩ := Prod.mk.inj (Option.some.inj hop)
    obtain ⟨d', hd', hq'⟩ := hq.popBack w
    refine ⟨d', _, by rw [onLayout, hd']; rfl, _, hq', ?_⟩
    rcases q.toList.eq_nil_or_concat' with hl | ⟨l, s, hl⟩
    · have hsize : q.size = 0 := SliceDeque.size_eq hl
      rw [SliceDeque.popBack, dif_pos hsize, hl]
      rfl
    · rw [(SliceDeque.popBack_of_concat hl w).1, hl, List.dropLast_concat]
  | front =>
    obtain ⟨s, hs, hs'⟩ := Option.map_eq_some_iff.1 hop
    obtain ⟨rfl, rfl⟩ := Prod.mk.inj hs'
    have hsize := size_ne_zero_of_isSome (q := q) hs fun hnil ↦ by rw [hnil]; rfl
    exact ⟨d, w, by rw [onLayout, hq.front hsize, hs]; rfl, q, hq, rfl⟩
  | back =>
    obtain ⟨s, hs, hs'⟩ := Option.map_eq_some_iff.1 hop
    obtain ⟨rfl, rfl⟩ := Prod.mk.inj hs'
    have hsize := size_ne_zero_of_isSome (q := q) hs fun hnil ↦ by rw [hnil]; rfl
    exact ⟨d, w, by rw [onLayout, hq.back hsize, hs]; rfl, q, hq, rfl⟩
  | get i =>
    obtain ⟨s, hs, hs'⟩ := Option.map_eq_some_iff.1 hop
    obtain ⟨rfl, rfl⟩ := Prod.mk.inj hs'
    have hi : i < q.size := by
      have := (List.getElem?_eq_some_iff.1 hs).1
      rwa [SliceDeque.length_toList] at this
    exact ⟨d, w, by rw [onLayout, hq.get_eq_getElem? hi, hs]; rfl, q, hq, rfl⟩
  | write i slice =>
    rw [onList] at hop
    split_ifs at hop with hi
    obtain ⟨rfl, rfl⟩ := Prod.mk.inj (Option.some.inj hop)
    rw [SliceDeque.length_toList] at hi
    obtain ⟨d', w', q', hwrite, hq', hlist⟩ := hq.setAt hi slice w
    exact ⟨d', w', by rw [onLayout, hwrite]; rfl, q', hq', hlist⟩
  | iterate =>
    obtain ⟨rfl, rfl⟩ := Prod.mk.inj (Option.some.inj hop)
    exact ⟨d, w, by rw [onLayout, hq.iterate]; rfl, q, hq, rfl⟩

/-- The program has seen the same, and has the same deques. -/
structure Agree (st : DequesState α) (lst : ListsState α) : Prop where
  /-- The same slices have been seen. -/
  seen : st.seen = lst.seen
  /-- A deque is there exactly if its list is, and has the elements of the list. -/
  deques : ∀ id, Option.Rel Represents (st.deques id) (lst.lists id)

theorem rel_update {β γ : Type*} {R : β → γ → Prop} {f : ℕ → Option β} {g : ℕ → Option γ}
    (h : ∀ id, Option.Rel R (f id) (g id)) {x : Option β} {y : Option γ} (hxy : Option.Rel R x y)
    (i id : ℕ) : Option.Rel R (Function.update f i x id) (Function.update g i y id) := by
  rcases eq_or_ne id i with rfl | hne
  · rwa [Function.update_self, Function.update_self]
  · rw [Function.update_of_ne hne, Function.update_of_ne hne]
    exact h id

namespace Agree

variable {st : DequesState α} {lst : ListsState α} {id : ℕ}

theorem exists_deque (h : Agree st lst) {l : List (Slice α)} (hl : lst.lists id = some l) :
    ∃ d, st.deques id = some d ∧ Represents d l := by
  have hrel := h.deques id
  rw [hl] at hrel
  generalize st.deques id = x at hrel ⊢
  cases hrel with
  | some hd => exact ⟨_, rfl, hd⟩

theorem exists_list (h : Agree st lst) {d : DequeLayout α} (hd : st.deques id = some d) :
    ∃ l, lst.lists id = some l ∧ Represents d l := by
  have hrel := h.deques id
  rw [hd] at hrel
  generalize lst.lists id = x at hrel ⊢
  cases hrel with
  | some hl => exact ⟨_, rfl, hl⟩

theorem deques_eq_none (h : Agree st lst) (hl : lst.lists id = none) : st.deques id = none := by
  have hrel := h.deques id
  rw [hl] at hrel
  generalize st.deques id = x at hrel ⊢
  cases hrel with
  | none => rfl

/-- **One step** of a program. -/
theorem step (h : Agree st lst) {op : DequesOp α} {lst' : ListsState α}
    (hop : lst.step op = some lst') : ∃ st', st.step op = some st' ∧ Agree st' lst' := by
  cases op with
  | create id =>
    simp only [ListsState.step] at hop
    split_ifs at hop with hfree
    obtain rfl := Option.some.inj hop
    simp only [DequesState.step, if_pos (h.deques_eq_none hfree)]
    exact ⟨_, rfl, h.seen, rel_update h.deques (.some ⟨.empty, .create, rfl⟩) id⟩
  | on id op =>
    simp only [ListsState.step, Option.bind_eq_bind, Option.bind_eq_some_iff] at hop
    obtain ⟨l, hl, ⟨shown, l'⟩, hop, hlst⟩ := hop
    obtain rfl := Option.some.inj hlst
    obtain ⟨d, hd, hrep⟩ := h.exists_deque hl
    obtain ⟨d', w', hop', hrep'⟩ := DequeOp.onLayout_represents hrep hop st.world
    simp only [DequesState.step, hd, hop', Option.bind_eq_bind, Option.bind_some]
    exact ⟨_, rfl, congrArg (· ++ [shown]) h.seen, rel_update h.deques (.some hrep') id⟩
  | moveConstruct id rhs =>
    simp only [ListsState.step, Option.bind_eq_bind, Option.bind_eq_some_iff] at hop
    obtain ⟨l, hl, hop⟩ := hop
    split_ifs at hop with hfree
    obtain rfl := Option.some.inj hop
    obtain ⟨d, hd, q, hq, hlist⟩ := h.exists_deque hl
    simp only [DequesState.step, hd, Option.bind_eq_bind, Option.bind_some,
      if_pos (h.deques_eq_none hfree)]
    exact ⟨_, rfl, h.seen,
      rel_update (rel_update h.deques .none rhs) (.some ⟨q, hq.moveConstruct, hlist⟩) id⟩
  | moveAssign id rhs =>
    simp only [ListsState.step, Option.bind_eq_bind, Option.bind_eq_some_iff] at hop
    obtain ⟨l₁, hl₁, l, hl, hop⟩ := hop
    split_ifs at hop with hne
    obtain rfl := Option.some.inj hop
    obtain ⟨d₁, hd₁, -⟩ := h.exists_deque hl₁
    obtain ⟨d, hd, q, hq, hlist⟩ := h.exists_deque hl
    simp only [DequesState.step, hd₁, hd, Option.bind_eq_bind, Option.bind_some, if_pos hne]
    exact ⟨_, rfl, h.seen,
      rel_update (rel_update h.deques .none rhs) (.some ⟨q, hq.moveConstruct, hlist⟩) id⟩

end Agree

/-- What holds of a deque of these elements, without a word about how it is laid out. -/
structure Holds (d : DequeLayout α) (l : List (Slice α)) : Prop where
  /-- Iterating visits the elements. -/
  iterate : d.iterate = some l
  /-- The size is their number. -/
  size : d.size = l.length
  /-- The start is the index of a slot. -/
  start_lt : d.start < d.capacity
  /-- There are enough slots. -/
  size_le : d.size ≤ d.capacity
  /-- Every index below the capacity is one of a slot. -/
  slots : ∃ slots, d.slots = some slots ∧ slots.length = d.capacity
  /-- The positions that hold no element hold an empty slice. -/
  vacant : ∀ i, d.size ≤ i → i < d.capacity → d.get i = some .empty
  /-- Growing has left no slice behind. -/
  unused : d.ring = .externalRing →
    d.inlineRing = List.replicate SliceDeque.inlineRingCapacity .empty

theorem Represents.holds {d : DequeLayout α} {l : List (Slice α)} (h : Represents d l) :
    Holds d l := by
  obtain ⟨q, hq, rfl⟩ := h
  refine ⟨hq.iterate, ?_, ?_, ?_, ⟨q.ring, hq.slots, hq.capacity.symm⟩, fun i hi hi' ↦ ?_,
    hq.unused⟩
  · rw [hq.size, SliceDeque.length_toList]
  · rw [hq.start, hq.capacity]
    exact q.start_lt
  · rw [hq.size, hq.capacity]
    exact q.size_le
  · rw [hq.capacity] at hi'
    exact hq.get_vacant (hq.size ▸ hi) hi'

/-- **A program over deques sees what it would see of lists.** All indices are within the rings,
since otherwise the run would have no result. -/
theorem layout_refines_list {ops : List (DequesOp α)} {lst : ListsState α}
    (hrun : run ListsState.step ops {} = some lst) (w : World α) :
    ∃ st, run DequesState.step ops { world := w } = some st ∧ st.seen = lst.seen ∧
      (∀ id, (st.deques id).isSome = (lst.lists id).isSome) ∧
      ∀ id d, st.deques id = some d → ∃ l, lst.lists id = some l ∧ Holds d l := by
  have hinit : Agree ({ world := w } : DequesState α) {} := ⟨rfl, fun _ ↦ .none⟩
  have hstep (op : DequesOp α) (st : DequesState α) (lst lst' : ListsState α) (h : Agree st lst)
      (hop : lst.step op = some lst') : ∃ st', st.step op = some st' ∧ Agree st' lst' :=
    h.step hop
  obtain ⟨st, hst, hagree⟩ := simulation hstep hinit hrun
  refine ⟨st, hst, hagree.seen, fun id ↦ ?_, fun id d hd ↦ ?_⟩
  · have hrel := hagree.deques id
    generalize st.deques id = x at hrel ⊢
    generalize lst.lists id = y at hrel ⊢
    cases hrel <;> rfl
  · obtain ⟨l, hl, hrep⟩ := hagree.exists_list hd
    exact ⟨l, hl, hrep.holds⟩

/-- A full ring that starts in the last slot but one grows, is moved to another deque, and
shrinks. -/
def wrappedGrowth : List (DequesOp ℕ) :=
  let slice (n : ℕ) : Slice ℕ := { capacity := n }
  [.create 0, .on 0 (.emplaceFront (slice 1)), .on 0 (.emplaceFront (slice 0))] ++
    ((List.range 8).map fun i ↦ .on 0 (.emplaceBack (slice (2 + i)))) ++
    [.moveConstruct 1 0, .on 1 .popFront, .on 1 .front, .on 1 (.get 4), .on 1 .popBack, .on 1 .back]

/-- What the end of the run shows, and the number of elements that are left. -/
theorem layout_refines_list_wrappedGrowth :
    ∃ st, run DequesState.step wrappedGrowth
        { world := { fragments := fun _ _ ↦ 0, fresh := fun _ _ ↦ 0 } } = some st ∧
      (st.seen.drop 10).map (·.map Slice.capacity) = [[], [1], [5], [], [8]] ∧
      ∃ d, st.deques 1 = some d ∧ d.size = 8 := by
  obtain ⟨st, hst, hseen, hsome, hlists⟩ := layout_refines_list
    (show run ListsState.step wrappedGrowth {} = some _ from rfl)
    { fragments := fun _ _ ↦ 0, fresh := fun _ _ ↦ 0 }
  refine ⟨st, hst, by rw [hseen]; rfl, ?_⟩
  obtain ⟨d, hd⟩ := Option.isSome_iff_exists.1 (hsome 1)
  obtain ⟨l, hl, hholds⟩ := hlists 1 d hd
  exact ⟨d, hd, hholds.size.trans (congrArg List.length (Option.some.inj hl)).symm⟩

end TcpServer.Buffer
