import TcpServer.Lib.Ring
import TcpServer.Buffer.Slice

/-!
# The ring of slices

`SliceDeque` keeps the slices of a buffer in a ring, at first the inline one and after the first
growth an external one. `ring_` points to the ring in use and `capacity_` is its length; the slots
of the inline ring are moved from when it is left and are not looked at again, so the ring in use is
the only one kept here.

A value of the type carries its invariant, whose heart is `vacant`: a slot that holds no element
holds an empty `Slice`. It is what makes the move assignments of `emplace_back` and `emplace_front`,
which call the trackers of the slice they overwrite, do nothing besides (`emplaceBack_snd`,
`emplaceFront_snd`).

The elements in order are `toList`, and the last section computes `toList` after every operation;
nothing above this file looks at an index again. The source has undefined behaviour for `front` and
`back` of an empty deque. Here a read gives an empty slice then, and a write does nothing.

How the inline and the external ring are laid out, and that no index leaves them, is in
`DequeLayout`, whose operations are shown to be the ones defined here.
-/

namespace TcpServer.Buffer

/-- A deque: a ring of slots, and where its elements are. -/
structure SliceDeque (α : Type*) where
  /-- The slots in use. -/
  ring : List (Slice α)
  /-- The slot of the first element. -/
  start : ℕ
  /-- The number of elements. -/
  size : ℕ
  /-- The first slot is one of the ring. -/
  start_lt : start < ring.length
  /-- There are slots for all elements. -/
  size_le : size ≤ ring.length
  /-- Read from the first slot on, there are empty slices behind the elements. -/
  vacant : (ring.rotate start).drop size = List.replicate (ring.length - size) .empty

namespace SliceDeque

variable {α : Type*}

/-- The number of slots of the inline ring. -/
def inlineRingCapacity : ℕ := 8

/-- `SliceDeque()`. -/
def empty : SliceDeque α where
  ring := List.replicate inlineRingCapacity .empty
  start := 0
  size := 0
  start_lt := by
    rw [List.length_replicate]
    decide
  size_le := Nat.zero_le _
  vacant := by
    rw [List.rotate_zero, List.drop_zero, List.length_replicate, Nat.sub_zero]

/-- `capacity_`. -/
def capacity (q : SliceDeque α) : ℕ := q.ring.length

/-- `internalIndex`. -/
def internalIndex (q : SliceDeque α) (index : ℕ) : ℕ := Ring.wrap q.capacity (q.start + index)

/-- `operator[]`. -/
def get (q : SliceDeque α) (i : ℕ) : Slice α := q.ring.getD (q.internalIndex i) .empty

/-- The elements from `begin()` to `end()`. -/
def toList (q : SliceDeque α) : List (Slice α) := (List.range q.size).map q.get

/-- `empty()`. -/
def isEmpty (q : SliceDeque α) : Bool := q.size = 0

/-- `front()`. -/
def front (q : SliceDeque α) : Slice α := q.ring.getD q.start .empty

/-- `back()`. -/
def back (q : SliceDeque α) : Slice α := q.get (q.size - 1)

/-! ### The ring read from its start

Rotated to its start, the ring is the elements and then nothing but empty slices. Every operation is
first computed on the rotated ring.
-/

/-- The elements are the first ones of the rotated ring. -/
theorem toList_eq_take (q : SliceDeque α) : q.toList = (q.ring.rotate q.start).take q.size := by
  have hs := q.start_lt
  have hsize := q.size_le
  refine List.ext_getElem (by simp [toList, hsize]) fun i h₁ h₂ ↦ ?_
  have hi : i < q.size := by simpa [toList] using h₁
  have hi' : i < (q.ring.rotate q.start).length := by
    rw [List.length_rotate]
    omega
  have hget : q.get i = (q.ring.rotate q.start).getD i .empty := Ring.getD_wrap hs (by omega) _
  simp [toList, hget, List.getD_eq_getElem?_getD, List.getElem?_eq_getElem hi']

@[simp] theorem length_toList (q : SliceDeque α) : q.toList.length = q.size := by
  simp [toList]

/-- An element is found by `operator[]`. -/
theorem getElem?_toList {q : SliceDeque α} {i : ℕ} (h : i < q.size) :
    q.toList[i]? = some (q.get i) := by
  simp [toList, h]

/-- The elements, and then nothing but empty slices. -/
theorem rotate_eq (q : SliceDeque α) :
    q.ring.rotate q.start = q.toList ++ List.replicate (q.capacity - q.size) .empty := by
  rw [toList_eq_take, capacity, ← q.vacant, List.take_append_drop]

/-- What makes a ring with given contents a deque. -/
theorem vacant_of_rotate_eq {ring l : List (Slice α)} {start size : ℕ} (hl : l.length = size)
    (h : ring.rotate start = l ++ List.replicate (ring.length - size) .empty) :
    (ring.rotate start).drop size = List.replicate (ring.length - size) .empty := by
  subst hl
  rw [h, List.drop_left]

/-- A ring that reads as a list and empty slices has the elements of the list. -/
theorem toList_of_rotate_eq {q : SliceDeque α} {l : List (Slice α)} (hl : l.length = q.size)
    (h : q.ring.rotate q.start = l ++ List.replicate (q.ring.length - q.size) .empty) :
    q.toList = l := by
  rw [toList_eq_take, h, ← hl, List.take_left]

theorem size_eq {q : SliceDeque α} {l : List (Slice α)} (h : q.toList = l) : q.size = l.length := by
  rw [← h, length_toList]

theorem exists_cons_of_size_ne_zero {q : SliceDeque α} (h : q.size ≠ 0) :
    ∃ s l, q.toList = s :: l :=
  List.exists_cons_of_ne_nil fun hnil ↦ h (size_eq hnil)

theorem exists_concat_of_size_ne_zero {q : SliceDeque α} (h : q.size ≠ 0) :
    ∃ l s, q.toList = l ++ [s] :=
  (List.eq_nil_or_concat' q.toList).resolve_left fun hnil ↦ h (size_eq hnil)

theorem isEmpty_iff {q : SliceDeque α} : q.isEmpty = true ↔ q.toList = [] := by
  rw [isEmpty, decide_eq_true_iff, ← length_toList, List.length_eq_zero_iff]

@[simp] theorem toList_empty : (empty : SliceDeque α).toList = [] := rfl

/-- `front()` is the first element. -/
theorem front_eq (q : SliceDeque α) : q.front = q.toList.headD .empty := by
  have hs := q.start_lt
  have hget := Ring.getD_wrap hs (i := 0) (by omega) (.empty : Slice α)
  rw [Nat.add_zero, Ring.wrap, if_neg (by omega), q.rotate_eq] at hget
  rw [front, hget]
  cases q.toList with
  | nil => cases q.capacity - q.size <;> rfl
  | cons s l => rfl

/-- `back()` is the last one. -/
theorem back_eq (q : SliceDeque α) : q.back = q.toList.getLastD .empty := by
  have hs := q.start_lt
  have hsize := q.size_le
  have hget := Ring.getD_wrap hs (i := q.size - 1) (by omega) (.empty : Slice α)
  rw [q.rotate_eq] at hget
  refine hget.trans ?_
  rw [← length_toList]
  rcases q.toList.eq_nil_or_concat with h | ⟨l, s, h⟩
  · rw [h]
    cases q.capacity - 0 <;> rfl
  · rw [h]
    simp

/-! ### The ring after a write to a slot

Each operation writes to one slot, and then moves the start or the size. These lemmas say what the
rotated ring is after both.
-/

theorem rotate_set_behind (q : SliceDeque α) (h : q.size < q.ring.length) (s : Slice α) :
    (q.ring.set (q.internalIndex q.size) s).rotate q.start =
      (q.toList ++ [s]) ++ List.replicate (q.ring.length - (q.size + 1)) .empty := by
  obtain ⟨n, hn⟩ : ∃ n, q.capacity - q.size = n + 1 := Nat.exists_eq_add_one.2 (Nat.sub_pos_of_lt h)
  have hrest : q.ring.length - (q.size + 1) = n := by
    rw [capacity] at hn
    omega
  rw [internalIndex]
  rw [capacity, Ring.rotate_set_wrap q.start_lt h, rotate_eq, hn, hrest, ← q.length_toList,
    List.replicate_succ, List.set_append_right _ _ (Nat.le_refl _), Nat.sub_self,
      List.set_cons_zero,
    List.append_assoc, List.singleton_append]

theorem rotate_set_front (q : SliceDeque α) {t : Slice α} {l : List (Slice α)}
    (h : q.toList = t :: l) (s : Slice α) :
    (q.ring.set q.start s).rotate q.start =
      (s :: l) ++ List.replicate (q.ring.length - q.size) .empty := by
  rw [Ring.rotate_set q.start_lt, rotate_eq, h, List.cons_append, List.set_cons_zero,
    List.cons_append, capacity]

theorem rotate_set_back (q : SliceDeque α) {t : Slice α} {l : List (Slice α)}
    (h : q.toList = l ++ [t]) (s : Slice α) :
    (q.ring.set (q.internalIndex (q.size - 1)) s).rotate q.start =
      (l ++ [s]) ++ List.replicate (q.ring.length - q.size) .empty := by
  have hpos : q.size = l.length + 1 := by
    rw [size_eq h, List.length_append, List.length_singleton]
  have hsize : q.size - 1 = l.length := by omega
  have hlt : l.length < q.ring.length := by
    have := q.size_le
    omega
  rw [internalIndex]
  rw [hsize, capacity, Ring.rotate_set_wrap q.start_lt hlt, rotate_eq, h, List.append_assoc,
    List.set_append_right _ _ (Nat.le_refl _), Nat.sub_self, List.singleton_append,
    List.set_cons_zero, List.append_assoc, List.singleton_append, capacity]

theorem rotate_pop_front (q : SliceDeque α) {t : Slice α} {l : List (Slice α)}
    (h : q.toList = t :: l) :
    (q.ring.set q.start .empty).rotate (if q.start + 1 = q.capacity then 0 else q.start + 1) =
      l ++ List.replicate (q.ring.length - (q.size - 1)) .empty := by
  have hsize : q.size = l.length + 1 := size_eq h
  have hle := q.size_le
  have hlen : (q.ring.set q.start .empty).length = q.ring.length := List.length_set
  have hpred : q.ring.length - (q.size - 1) = q.ring.length - q.size + 1 := by omega
  rw [capacity, ← hlen, ← Ring.wrap_succ (hlen ▸ q.start_lt),
    Ring.rotate_wrap_succ (hlen ▸ q.start_lt) (q.rotate_set_front h .empty), hlen, hpred,
    List.replicate_succ', ← List.append_assoc]
  rfl

theorem rotate_pop_back (q : SliceDeque α) {t : Slice α} {l : List (Slice α)}
    (h : q.toList = l ++ [t]) :
    (q.ring.set (q.internalIndex (q.size - 1)) .empty).rotate q.start =
      l ++ List.replicate (q.ring.length - (q.size - 1)) .empty := by
  have hpos : q.size = l.length + 1 := by
    rw [size_eq h, List.length_append, List.length_singleton]
  have hpred : q.ring.length - (q.size - 1) = q.ring.length - q.size + 1 := by
    have := q.size_le
    omega
  rw [q.rotate_set_back h, hpred, List.replicate_succ, List.append_assoc, List.singleton_append]

theorem rotate_push_front (q : SliceDeque α) (h : q.size < q.ring.length) (s : Slice α) :
    (q.ring.set (if q.start = 0 then q.capacity - 1 else q.start - 1) s).rotate
        (if q.start = 0 then q.capacity - 1 else q.start - 1) =
      (s :: q.toList) ++ List.replicate (q.ring.length - (q.size + 1)) .empty := by
  obtain ⟨n, hn⟩ : ∃ n, q.capacity - q.size = n + 1 := Nat.exists_eq_add_one.2 (Nat.sub_pos_of_lt h)
  have hrest : q.ring.length - (q.size + 1) = n := by
    rw [capacity] at hn
    omega
  have hstart := q.start_lt
  have hlt : (if q.start = 0 then q.ring.length - 1 else q.start - 1) < q.ring.length := by
    split_ifs <;> omega
  have hrot : q.ring.rotate q.start = (q.toList ++ List.replicate n .empty) ++ [.empty] := by
    rw [rotate_eq, hn, List.replicate_succ', List.append_assoc]
  rw [capacity, Ring.rotate_set hlt, Ring.rotate_pred q.start_lt hrot, List.set_cons_zero, hrest,
    List.cons_append]

/-! ### The operations

The operations are on the ring and the two numbers; that they keep the invariant follows from what
the rotated ring is.
-/

/-- Doubles a full ring: the slots are moved, in order, to the front of a new ring. The slots of the
new ring and those of the old, when it is freed, are empty slices, so no tracker is called. -/
def growRing (q : SliceDeque α) : SliceDeque α :=
  if h : q.size < q.capacity then q
  else
    have hsize := q.size_le
    have hlt := q.start_lt
    { ring := Ring.walk q.ring .empty q.size q.start ++
        List.replicate (q.capacity * 2 - q.size) .empty
      start := 0
      size := q.size
      start_lt := by
        rw [List.length_append, Ring.length_walk, List.length_replicate, capacity]
        omega
      size_le := by
        rw [List.length_append, Ring.length_walk]
        omega
      vacant := vacant_of_rotate_eq (Ring.length_walk _ _ _ _) (by
        rw [List.rotate_zero, List.length_append, Ring.length_walk, List.length_replicate,
          Nat.add_sub_cancel_left]) }

theorem size_growRing (q : SliceDeque α) : q.growRing.size = q.size := by
  rw [growRing]
  split_ifs <;> rfl

/-- There is room after growing. -/
theorem size_lt_growRing (q : SliceDeque α) : q.growRing.size < q.growRing.capacity := by
  have hlt := q.start_lt
  have hle := q.size_le
  rw [growRing]
  split_ifs with h
  · exact h
  · show q.size < (Ring.walk _ _ _ _ ++ List.replicate (q.capacity * 2 - q.size) _).length
    rw [List.length_append, Ring.length_walk, List.length_replicate, capacity]
    omega

/-- Growing keeps the elements. -/
@[simp] theorem toList_growRing (q : SliceDeque α) : q.growRing.toList = q.toList := by
  rw [growRing]
  split_ifs with h
  · rfl
  · have hsize : q.size = q.ring.length := Nat.le_antisymm q.size_le (Nat.le_of_not_lt h)
    have hwalk : Ring.walk q.ring .empty q.size q.start = q.toList := by
      rw [Ring.walk_eq_take _ q.start_lt q.size_le, toList_eq_take]
    refine toList_of_rotate_eq (length_toList q) ?_
    dsimp only
    rw [hwalk, List.rotate_zero, List.length_append, List.length_replicate, length_toList,
      Nat.add_sub_cancel_left]

/-- `emplace_back`. The slot is move-assigned, so the slice it held calls its trackers. -/
def emplaceBack (q₀ : SliceDeque α) (s : Slice α) (w : World α) : SliceDeque α × World α :=
  let q := q₀.growRing
  let index := q.internalIndex q.size
  have hlt : q.size < q.ring.length := q₀.size_lt_growRing
  ({ ring := q.ring.set index s
     start := q.start
     size := q.size + 1
     start_lt := List.length_set.symm ▸ q.start_lt
     size_le := List.length_set.symm ▸ hlt
     vacant := vacant_of_rotate_eq (l := q.toList ++ [s]) (by simp)
      (List.length_set.symm ▸ q.rotate_set_behind hlt s) },
    ((q.ring.getD index .empty).callAndClearDrainTrackersAndCharges w).2)

/-- `emplace_front`. -/
def emplaceFront (q₀ : SliceDeque α) (s : Slice α) (w : World α) : SliceDeque α × World α :=
  let q := q₀.growRing
  let start := if q.start = 0 then q.capacity - 1 else q.start - 1
  have hlt : q.size < q.ring.length := q₀.size_lt_growRing
  ({ ring := q.ring.set start s
     start := start
     size := q.size + 1
     start_lt := by
      have := q.start_lt
      rw [List.length_set]
      unfold start capacity
      split_ifs <;> omega
     size_le := List.length_set.symm ▸ hlt
     vacant := vacant_of_rotate_eq (l := s :: q.toList) (by simp)
      (List.length_set.symm ▸ q.rotate_push_front hlt s) },
    ((q.ring.getD start .empty).callAndClearDrainTrackersAndCharges w).2)

/-- `pop_front`, by the move assignment `front() = Slice()`. -/
def popFront (q : SliceDeque α) (w : World α) : SliceDeque α × World α :=
  if h : q.size = 0 then (q, w)
  else
    ({ ring := q.ring.set q.start .empty
       start := if q.start + 1 = q.capacity then 0 else q.start + 1
       size := q.size - 1
       start_lt := by
        have := q.start_lt
        rw [List.length_set, capacity]
        split_ifs <;> omega
       size_le := by
        have := q.size_le
        rw [List.length_set]
        omega
       vacant := by
        obtain ⟨t, l, hl⟩ := exists_cons_of_size_ne_zero h
        refine vacant_of_rotate_eq (l := l) ?_ (List.length_set.symm ▸ q.rotate_pop_front hl)
        rw [size_eq hl, List.length_cons, Nat.add_sub_cancel] },
      (q.front.callAndClearDrainTrackersAndCharges w).2)

/-- `pop_back`, by the move assignment `back() = Slice()`. -/
def popBack (q : SliceDeque α) (w : World α) : SliceDeque α × World α :=
  if h : q.size = 0 then (q, w)
  else
    ({ ring := q.ring.set (q.internalIndex (q.size - 1)) .empty
       start := q.start
       size := q.size - 1
       start_lt := List.length_set.symm ▸ q.start_lt
       size_le := by
        have := q.size_le
        rw [List.length_set]
        omega
       vacant := by
        obtain ⟨l, t, hl⟩ := exists_concat_of_size_ne_zero h
        refine vacant_of_rotate_eq (l := l) ?_ (List.length_set.symm ▸ q.rotate_pop_back hl)
        rw [size_eq hl, List.length_append, List.length_singleton, Nat.add_sub_cancel] },
      (q.back.callAndClearDrainTrackersAndCharges w).2)

/-- Writing through the reference `front()`. -/
def setFront (q : SliceDeque α) (s : Slice α) : SliceDeque α :=
  if h : q.size = 0 then q
  else
    { ring := q.ring.set q.start s
      start := q.start
      size := q.size
      start_lt := List.length_set.symm ▸ q.start_lt
      size_le := List.length_set.symm ▸ q.size_le
      vacant := by
        obtain ⟨t, l, hl⟩ := exists_cons_of_size_ne_zero h
        exact vacant_of_rotate_eq (l := s :: l) (size_eq hl).symm
          (List.length_set.symm ▸ q.rotate_set_front hl s) }

/-- Writing through the reference `back()`. -/
def setBack (q : SliceDeque α) (s : Slice α) : SliceDeque α :=
  if h : q.size = 0 then q
  else
    { ring := q.ring.set (q.internalIndex (q.size - 1)) s
      start := q.start
      size := q.size
      start_lt := List.length_set.symm ▸ q.start_lt
      size_le := List.length_set.symm ▸ q.size_le
      vacant := by
        obtain ⟨l, t, hl⟩ := exists_concat_of_size_ne_zero h
        refine vacant_of_rotate_eq (l := l ++ [s]) ?_
          (List.length_set.symm ▸ q.rotate_set_back hl s)
        rw [size_eq hl, List.length_append, List.length_append, List.length_singleton,
          List.length_singleton] }

/-- `~SliceDeque`: the slots of the ring are destroyed in reverse order. -/
def destroy (q : SliceDeque α) (w : World α) : World α :=
  q.ring.reverse.foldl (fun w s ↦ (s.callAndClearDrainTrackersAndCharges w).2) w

/-! ### The elements after an operation

On the elements, the operations are those of a list.
-/

/-- Overwriting an empty slice calls nothing. -/
theorem release_empty (w : World α) :
    ((Slice.empty : Slice α).callAndClearDrainTrackersAndCharges w).2 = w := by
  rw [Slice.callAndClearDrainTrackersAndCharges, Slice.releaseEvents_empty, World.log_nil]

@[simp] theorem toList_emplaceBack (q : SliceDeque α) (s : Slice α) (w : World α) :
    (q.emplaceBack s w).1.toList = q.toList ++ [s] := by
  have h := q.growRing.rotate_set_behind q.size_lt_growRing s
  rw [toList_growRing] at h
  exact toList_of_rotate_eq (by simp [emplaceBack, size_growRing]) (List.length_set.symm ▸ h)

/-- The overwritten slot is vacant, so nothing is called. -/
@[simp] theorem emplaceBack_snd (q : SliceDeque α) (s : Slice α) (w : World α) :
    (q.emplaceBack s w).2 = w := by
  have hlt : q.growRing.size < q.growRing.ring.length := q.size_lt_growRing
  have hslot : q.growRing.ring.getD (q.growRing.internalIndex q.growRing.size) .empty = .empty := by
    rw [internalIndex, capacity, Ring.getD_wrap q.growRing.start_lt hlt, rotate_eq,
      List.getD_eq_getElem?_getD, List.getElem?_append_right (by rw [length_toList]),
      List.getElem?_replicate]
    split <;> rfl
  rw [emplaceBack]
  dsimp only
  rw [hslot, release_empty]

@[simp] theorem toList_emplaceFront (q : SliceDeque α) (s : Slice α) (w : World α) :
    (q.emplaceFront s w).1.toList = s :: q.toList := by
  have h := q.growRing.rotate_push_front q.size_lt_growRing s
  rw [toList_growRing] at h
  exact toList_of_rotate_eq (by simp [emplaceFront, size_growRing]) (List.length_set.symm ▸ h)

@[simp] theorem emplaceFront_snd (q : SliceDeque α) (s : Slice α) (w : World α) :
    (q.emplaceFront s w).2 = w := by
  have hlt : q.growRing.size < q.growRing.ring.length := q.size_lt_growRing
  have hstart := q.growRing.start_lt
  obtain ⟨n, hn⟩ : ∃ n, q.growRing.capacity - q.growRing.size = n + 1 :=
    Nat.exists_eq_add_one.2 (Nat.sub_pos_of_lt hlt)
  have hrot : q.growRing.ring.rotate q.growRing.start =
      (q.growRing.toList ++ List.replicate n .empty) ++ [.empty] := by
    rw [rotate_eq, hn, List.replicate_succ', List.append_assoc]
  have hslot := Ring.getD_start (by split_ifs <;> omega) (Ring.rotate_pred hstart hrot) .empty
  unfold emplaceFront capacity
  dsimp only
  rw [hslot, release_empty]

/-- The first element is released when it is popped. -/
theorem popFront_of_cons {q : SliceDeque α} {s : Slice α} {l : List (Slice α)}
    (h : q.toList = s :: l) (w : World α) :
    (q.popFront w).1.toList = l ∧ (q.popFront w).2 = w.log s.releaseEvents := by
  have hsize : q.size = l.length + 1 := size_eq h
  rw [popFront]
  rw [dif_neg (by omega)]
  refine ⟨toList_of_rotate_eq ?_ (List.length_set.symm ▸ q.rotate_pop_front h), ?_⟩
  · show l.length = q.size - 1
    omega
  · show w.log q.front.releaseEvents = _
    rw [front_eq, h, List.headD_cons]

/-- So is the last one. -/
theorem popBack_of_concat {q : SliceDeque α} {s : Slice α} {l : List (Slice α)}
    (h : q.toList = l ++ [s]) (w : World α) :
    (q.popBack w).1.toList = l ∧ (q.popBack w).2 = w.log s.releaseEvents := by
  have hsize : q.size = l.length + 1 := by
    rw [size_eq h, List.length_append, List.length_singleton]
  rw [popBack]
  rw [dif_neg (by omega)]
  refine ⟨toList_of_rotate_eq ?_ (List.length_set.symm ▸ q.rotate_pop_back h), ?_⟩
  · show l.length = q.size - 1
    omega
  · show w.log q.back.releaseEvents = _
    rw [back_eq, h, List.getLastD_concat]

theorem front_of_cons {q : SliceDeque α} {s : Slice α} {l : List (Slice α)}
    (h : q.toList = s :: l) :
    q.front = s := by
  rw [front_eq, h, List.headD_cons]

theorem get_zero_of_cons {q : SliceDeque α} {s : Slice α} {l : List (Slice α)}
    (h : q.toList = s :: l) : q.get 0 = s := by
  have hpos : 0 < q.size := by
    rw [size_eq h]
    exact Nat.succ_pos _
  have hhead := congrArg (·[0]?) h
  simpa [toList, hpos] using hhead

theorem back_of_concat {q : SliceDeque α} {s : Slice α} {l : List (Slice α)}
    (h : q.toList = l ++ [s]) : q.back = s := by
  rw [back_eq, h, List.getLastD_concat]

theorem setFront_of_cons {q : SliceDeque α} {s : Slice α} {l : List (Slice α)}
    (h : q.toList = s :: l) (t : Slice α) : (q.setFront t).toList = t :: l := by
  have hsize : q.size = l.length + 1 := size_eq h
  rw [setFront]
  rw [dif_neg (by omega)]
  exact toList_of_rotate_eq hsize.symm (List.length_set.symm ▸ q.rotate_set_front h t)

theorem setBack_of_nil {q : SliceDeque α} (h : q.toList = []) (t : Slice α) : q.setBack t = q := by
  have hsize : q.size = 0 := size_eq h
  rw [setBack]
  rw [dif_pos hsize]

theorem setBack_of_concat {q : SliceDeque α} {s : Slice α} {l : List (Slice α)}
    (h : q.toList = l ++ [s]) (t : Slice α) : (q.setBack t).toList = l ++ [t] := by
  have hsize : q.size = l.length + 1 := by
    rw [size_eq h, List.length_append, List.length_singleton]
  rw [setBack]
  rw [dif_neg (by omega)]
  refine toList_of_rotate_eq ?_ (List.length_set.symm ▸ q.rotate_set_back h t)
  rw [List.length_append, List.length_singleton]
  exact hsize.symm

/-- The vacant slots of a ring that is destroyed call nothing, so what is called is what the
elements call, last element first, in the order in which the ring lies in memory. -/
theorem destroy_eq (q : SliceDeque α) (w : World α) :
    ∃ l : List (Slice α), l.Perm (q.toList ++ List.replicate (q.capacity - q.size) .empty) ∧
      q.destroy w = w.log (l.flatMap Slice.releaseEvents) := by
  have hfold (l : List (Slice α)) : ∀ w : World α,
      l.foldl (fun w s ↦ (s.callAndClearDrainTrackersAndCharges w).2) w =
        w.log (l.flatMap Slice.releaseEvents) := by
    induction l with
    | nil => exact fun w ↦ (World.log_nil w).symm
    | cons s l ih =>
      intro w
      rw [List.foldl_cons, ih, List.flatMap_cons, ← World.log_log]
      rfl
  refine ⟨q.ring.reverse, ?_, hfold _ w⟩
  rw [← rotate_eq]
  exact (List.reverse_perm _).trans (List.rotate_perm _ _).symm

end SliceDeque

end TcpServer.Buffer
