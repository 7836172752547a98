import TcpServer.Lib.Memory
import Mathlib.Logic.Function.Basic

/-!
# Slices

A `Slice` is a block of memory of `capacity_` bytes with two offsets: the data section is `[data_,
reservable_)`, what is in front of it has been drained, what is behind it can be reserved.

* **Memory.** `storage_` and `base_` are one field here, `backing`: a slice that owns its storage
  has `base_ == storage_.get()`, one over a `BufferFragment` has `base_ == fragment.data()` and no
  storage, and a default-constructed or moved-from slice has neither. A storage is owned by exactly
  one party, so its bytes travel with it; the memory of a fragment belongs to the caller and is part
  of the `World`. What a new storage holds is not specified, so it is whatever `World.fresh` says.
* **Effects.** The callbacks that a slice calls and the calls it makes on its account are appended
  to `World.events`.
* **Integers.** Offsets and sizes are natural numbers. No offset of a well-formed slice exceeds its
  capacity (`Slice.WF`), so the only arithmetic that can wrap is that of `sliceSize`, which is done
  modulo `2 ^ 64`.

The type `α` is that of bytes. No operation looks into a byte.

What a function of the class does to a well-formed slice is stated with the predicates `Same`,
`Appended` and `Prepended`, which say how the data change and that nothing else does. All later
modules know a slice by these.
-/

namespace TcpServer.Buffer

open Memory

/-- A heap block of `size` bytes that a slice may own. -/
structure Storage (α : Type*) where
  /-- A number of its own. -/
  id : ℕ
  /-- How many bytes it has. -/
  size : ℕ
  /-- Its bytes, by offset. -/
  mem : ℕ → α

/-- The memory behind a slice: `storage_` and `base_`. -/
inductive Backing (α : Type*)
  | null
  | owned (storage : Storage α)
  | external (fragment : ℕ)

/-- What a pointer points into. -/
inductive Block
  | storage (id : ℕ)
  | fragment (id : ℕ)
deriving DecidableEq

/-- A `RawSlice`: an address and a length. -/
structure RawSlice where
  /-- What it points into, and where; null for an empty one. -/
  mem : Option (Block × ℕ)
  /-- How many bytes there are. -/
  len : ℕ
deriving DecidableEq

/-- A callback in `drain_trackers_`: one passed to `addDrainTracker`, or the call of `done()` that
the constructor from a fragment registers. -/
inductive DrainTracker
  | callback (id : ℕ)
  | done (fragment : ℕ)
deriving DecidableEq

/-- A call of a tracker, or a call on an account. -/
inductive Event
  | called (tracker : DrainTracker)
  | charge (account amount : ℕ)
  | credit (account amount : ℕ)
deriving DecidableEq

/-- A `BufferFragment`, whose data is `World.fragments id`. -/
structure BufferFragment where
  /-- A number of its own. -/
  id : ℕ
  /-- `size()`. -/
  size : ℕ
deriving DecidableEq

/-- `default_slice_size_`. -/
def Slice.defaultSliceSize : ℕ := 16384

/-- `Reservation::MAX_SLICES_`. -/
def maxSlices : ℕ := 8

/-- The greatest length of the free list. -/
def freeListMax : ℕ := maxSlices

/-- What slices share: the memory of the fragments, the allocator (the next unused storage and the
content of new ones), the free list of read reservations, and the history. -/
structure World (α : Type*) where
  /-- The memory of each fragment, by offset. -/
  fragments : ℕ → ℕ → α
  /-- What a new storage holds, by its number. -/
  fresh : ℕ → ℕ → α
  /-- The number of the next storage. -/
  next : ℕ := 0
  /-- The free list of the thread. -/
  freeList : List (Storage α) := []
  /-- The calls made so far. -/
  events : List Event := []

namespace World

variable {α : Type*}

/-- More calls are made. -/
def log (w : World α) (events : List Event) : World α := { w with events := w.events ++ events }

/-- The free list holds a few blocks, all of the default size. -/
structure WF (w : World α) : Prop where
  /-- A block of the free list has the default size. -/
  size : ∀ storage ∈ w.freeList, storage.size = Slice.defaultSliceSize
  /-- The list is not too long. -/
  length_le : w.freeList.length ≤ freeListMax

/-- `new uint8_t[size]`. -/
def allocate (w : World α) (size : ℕ) : Storage α × World α :=
  ({ id := w.next, size, mem := w.fresh w.next }, { w with next := w.next + 1 })

@[simp] theorem log_nil (w : World α) : w.log [] = w := by
  simp [log]

theorem log_log (w : World α) (es es' : List Event) : (w.log es).log es' = w.log (es ++ es') := by
  simp [log]

@[simp] theorem fragments_log (w : World α) (es) : (w.log es).fragments = w.fragments := rfl
@[simp] theorem freeList_log (w : World α) (es) : (w.log es).freeList = w.freeList := rfl
@[simp] theorem next_log (w : World α) (es) : (w.log es).next = w.next := rfl
@[simp] theorem events_log (w : World α) (es) : (w.log es).events = w.events ++ es := rfl

end World

/-- `PageSize`. -/
def pageSize : ℕ := 4096

/-- The size of the storage for `dataSize` bytes: the next multiple of the page size, in `uint64_t`
arithmetic. -/
def sliceSize (dataSize : ℕ) : ℕ :=
  let numPages := (dataSize + pageSize - 1) % 2 ^ 64 / pageSize
  numPages * pageSize

/-- The greatest size for which `sliceSize` does not wrap. -/
def maxSliceSize : ℕ := 2 ^ 64 - 4096

/-- Without wrapping, the size is enough. -/
theorem le_sliceSize {n : ℕ} (h : n ≤ maxSliceSize) : n ≤ sliceSize n := by
  rw [maxSliceSize] at h
  unfold sliceSize pageSize
  dsimp only
  omega

/-- The size is a multiple of the page size. -/
theorem sliceSize_le (n : ℕ) : sliceSize n ≤ maxSliceSize := by
  unfold maxSliceSize sliceSize pageSize
  dsimp only
  omega

/-- Past that size the slice gets no memory at all. -/
theorem sliceSize_eq_zero {n : ℕ} (h : maxSliceSize < n) (h' : n < 2 ^ 64) : sliceSize n = 0 := by
  rw [maxSliceSize] at h
  unfold sliceSize pageSize
  dsimp only
  omega

/-- A `Slice`, with the default member initializers of the source. -/
structure Slice (α : Type*) where
  /-- `capacity_`. -/
  capacity : ℕ := 0
  /-- `storage_` and `base_`. -/
  backing : Backing α := .null
  /-- `data_`. -/
  data : ℕ := 0
  /-- `reservable_`. -/
  reservable : ℕ := 0
  /-- `drain_trackers_`. -/
  drainTrackers : List DrainTracker := []
  /-- `account_`. -/
  account : Option ℕ := none

namespace Slice

variable {α : Type*}

/-! ### The functions of the class

The functions are in the order of the class, with the bytes of a caller as a list. Those that call a
tracker or an account return the world.
-/

/-- `Slice()`, which is also what `std::move` leaves behind. -/
def empty : Slice α := {}

/-- `base_`. -/
def base (s : Slice α) : Option Block :=
  match s.backing with
  | .null => none
  | .owned storage => some (.storage storage.id)
  | .external fragment => some (.fragment fragment)

/-- `isMutable`. -/
def isMutable (s : Slice α) : Bool :=
  match s.backing with
  | .owned _ => true
  | _ => false

/-- `canCoalesce`. -/
def canCoalesce (s : Slice α) : Bool :=
  match s.backing with
  | .owned _ => true
  | _ => false

/-- `dataSize`. -/
def dataSize (s : Slice α) : ℕ := s.reservable - s.data

/-- `reservableSize`. -/
def reservableSize (s : Slice α) : ℕ := s.capacity - s.reservable

/-- The `len` bytes at `base_ + offset`. -/
def load (s : Slice α) (w : World α) (offset len : ℕ) : List α :=
  match s.backing with
  | .null => []
  | .owned storage => read storage.mem offset len
  | .external fragment => read (w.fragments fragment) offset len

/-- `memcpy` to `base_ + offset`. -/
def store (s : Slice α) (w : World α) (offset : ℕ) (bytes : List α) : Slice α × World α :=
  match s.backing with
  | .null => (s, w)
  | .owned storage =>
    ({ s with backing := .owned { storage with mem := write storage.mem offset bytes } }, w)
  | .external fragment =>
    (s, { w with fragments :=
            Function.update w.fragments fragment (write (w.fragments fragment) offset bytes) })

/-- The data section, `dataSize()` bytes from `data()` on. -/
def bytes (s : Slice α) (w : World α) : List α := s.load w s.data s.dataSize

/-- The calls on an account by a constructor. -/
def chargeEvents (account : Option ℕ) (capacity : ℕ) : List Event :=
  (account.map (Event.charge · capacity)).toList

/-- `Slice(min_capacity, account)`. -/
def create (minCapacity : ℕ) (account : Option ℕ) (w : World α) : Slice α × World α :=
  let (storage, w) := w.allocate (sliceSize minCapacity)
  ({ capacity := sliceSize minCapacity, backing := .owned storage, account },
    w.log (chargeEvents account (sliceSize minCapacity)))

/-- `Slice(storage, used_size, account)`, for a storage of `len` bytes. -/
def ofStorage (storage : Storage α) (len usedSize : ℕ) (account : Option ℕ) (w : World α) :
    Slice α × World α :=
  ({ capacity := len, backing := .owned storage, reservable := usedSize, account },
    w.log (chargeEvents account len))

/-- `Slice(fragment)`. -/
def ofFragment (fragment : BufferFragment) : Slice α :=
  { capacity := fragment.size, backing := .external fragment.id, reservable := fragment.size,
    drainTrackers := [.done fragment.id] }

/-- `drain`: a slice that is drained whole begins again at its front. -/
def drain (s : Slice α) (size : ℕ) : Slice α :=
  if s.data + size = s.reservable then { s with data := 0, reservable := 0 }
  else { s with data := s.data + size }

/-- `reserve`. -/
def reserve (s : Slice α) (size : ℕ) : RawSlice :=
  if size = 0 then ⟨none, 0⟩
  else if s.capacity - s.reservable = 0 then ⟨none, 0⟩
  else ⟨s.base.map (·, s.reservable), min size (s.capacity - s.reservable)⟩

/-- `commit<SafeCommit>`, with its result. -/
def commit (safeCommit : Bool) (s : Slice α) (reservation : RawSlice) : Slice α × Bool :=
  if safeCommit ∧ (reservation.mem ≠ s.base.map (·, s.reservable) ∨
      s.reservable + reservation.len > s.capacity ∨ s.reservable ≥ s.capacity) then (s, false)
  else ({ s with reservable := s.reservable + reservation.len }, true)

/-- Copies as much of `data` as fits behind the data section; returns how much that is. -/
def append (s : Slice α) (data : List α) (w : World α) : ℕ × Slice α × World α :=
  let copySize := min data.length s.reservableSize
  if copySize = 0 then (0, s, w)
  else
    let (s', w) := s.store w s.reservable (data.take copySize)
    (copySize, { s' with reservable := s.reservable + copySize }, w)

/-- Copies as much of the end of `data` as fits in front of the data section. -/
def prepend (s : Slice α) (data : List α) (w : World α) : ℕ × Slice α × World α :=
  if s.dataSize = 0 then
    -- The data goes to the very end, to leave room in front of it.
    let copySize := min data.length s.reservableSize
    let (s', w) := s.store w (s.capacity - copySize) (data.drop (data.length - copySize))
    (copySize, { s' with reservable := s.capacity, data := s.capacity - copySize }, w)
  else if s.data = 0 then (0, s, w)
  else
    let copySize := min data.length s.data
    let (s', w) := s.store w (s.data - copySize) (data.drop (data.length - copySize))
    (copySize, { s' with data := s.data - copySize }, w)

/-- The trackers move; the account stays. -/
def transferDrainTrackersTo (s destination : Slice α) : Slice α × Slice α :=
  ({ s with drainTrackers := [] },
    { destination with drainTrackers := destination.drainTrackers ++ s.drainTrackers })

/-- `addDrainTracker`. -/
def addDrainTracker (s : Slice α) (drainTracker : DrainTracker) : Slice α :=
  { s with drainTrackers := s.drainTrackers ++ [drainTracker] }

/-- What `callAndClearDrainTrackersAndCharges` calls. -/
def releaseEvents (s : Slice α) : List Event :=
  s.drainTrackers.map .called ++ (s.account.map (Event.credit · s.capacity)).toList

/-- Also the destructor, and what a move assignment does to its target. -/
def callAndClearDrainTrackersAndCharges (s : Slice α) (w : World α) : Slice α × World α :=
  ({ s with drainTrackers := [], account := none }, w.log s.releaseEvents)

/-- `maybeChargeAccount`: a slice that is charged already, or that has no storage of its own, is
left alone. -/
def maybeChargeAccount (s : Slice α) (account : Option ℕ) (w : World α) : Slice α × World α :=
  if s.account ≠ none ∨ s.isMutable = false ∨ account = none then (s, w)
  else ({ s with account }, w.log (chargeEvents account s.capacity))

/-! ### Well-formed slices

The offsets of a slice are in order and within its memory, and a slice over a fragment has no room
and carries the `done()` of the fragment.
-/

/-- The invariant of a slice. What makes a slice over a fragment read-only as far as `append`,
`reserve` and `commit` go is that it has no room behind its data (`external`). -/
structure WF (s : Slice α) : Prop where
  /-- The offsets are in order. -/
  data_le : s.data ≤ s.reservable
  /-- They are within the memory. -/
  reservable_le : s.reservable ≤ s.capacity
  /-- A slice without data begins at its front. -/
  data_eq_zero : s.dataSize = 0 → s.data = 0
  /-- Without memory there is no capacity. -/
  null : s.base = none → s.capacity = 0
  /-- Over a fragment there is no room behind the data, and its `done()` is to come. -/
  external : ∀ f, s.base = some (.fragment f) →
    s.reservable = s.capacity ∧ .done f ∈ s.drainTrackers
  /-- The storage has the size it should have. -/
  owned : ∀ storage, s.backing = .owned storage → storage.size = s.capacity

/-- `s'` is the slice `s` after operations on its bytes: the same memory, with the same trackers and
the same account. -/
structure Same (s s' : Slice α) : Prop where
  /-- The capacity stays. -/
  capacity : s'.capacity = s.capacity
  /-- So does the memory. -/
  base : s'.base = s.base
  /-- So do the trackers. -/
  drainTrackers : s'.drainTrackers = s.drainTrackers
  /-- So does the account. -/
  account : s'.account = s.account

/-- `s'` is `s` with `d` behind its data. -/
structure Appended (s : Slice α) (d : List α) (s' : Slice α) : Prop extends Same s s' where
  /-- It is well-formed. -/
  wf : s'.WF
  /-- Its room begins behind the new data. -/
  reservable : s'.reservable = s.reservable + d.length
  /-- It has the new data as well. -/
  dataSize : s'.dataSize = s.dataSize + d.length
  /-- They come behind the others. -/
  bytes : ∀ w, s'.bytes w = s.bytes w ++ d

/-- `s'` is `s` with `d` in front of its data. Writing there may change the fragment under the
slice. -/
structure Prepended (s : Slice α) (d : List α) (w : World α) (s' : Slice α) (w' : World α) : Prop
    extends Same s s' where
  /-- It is well-formed. -/
  wf : s'.WF
  /-- It has the new data as well. -/
  dataSize : s'.dataSize = s.dataSize + d.length
  /-- They come before the others. -/
  bytes : s'.bytes w' = d ++ s.bytes w

theorem Same.refl (s : Slice α) : Same s s := ⟨rfl, rfl, rfl, rfl⟩

theorem Same.releaseEvents {s s' : Slice α} (h : Same s s') :
    s'.releaseEvents = s.releaseEvents := by
  rw [Slice.releaseEvents, Slice.releaseEvents, h.drainTrackers, h.account, h.capacity]

theorem wf_empty : (empty : Slice α).WF :=
  ⟨Nat.le_refl _, Nat.le_refl _, fun _ ↦ rfl, fun _ ↦ rfl, fun _ h ↦ (nomatch h),
    fun _ h ↦ (nomatch h)⟩

@[simp] theorem releaseEvents_empty : (empty : Slice α).releaseEvents = [] := rfl

theorem isMutable_iff {s : Slice α} : s.isMutable = true ↔ ∃ st, s.backing = .owned st := by
  rw [isMutable]
  cases s.backing <;> simp

theorem base_eq_fragment_iff {s : Slice α} {f : ℕ} :
    s.base = some (.fragment f) ↔ s.backing = .external f := by
  rw [base]
  cases s.backing <;> simp

/-- A slice without memory is null. -/
theorem base_eq_none_iff {s : Slice α} : s.base = none ↔ s.backing = .null := by
  rw [base]
  cases s.backing <;> simp

theorem isMutable_eq_of_base {s s' : Slice α} (h : s'.base = s.base) :
    s'.isMutable = s.isMutable := by
  unfold base at h
  unfold isMutable
  cases hs : s.backing <;> cases hs' : s'.backing <;> simp_all

/-! ### What the data section holds

Reading at offsets within the capacity gives as many bytes as are asked for, and two parts that
follow each other are read as one.
-/

theorem WF.length_load {s : Slice α} (hs : s.WF) (w : World α) {offset len : ℕ}
    (h : offset + len ≤ s.capacity) : (s.load w offset len).length = len := by
  rw [load]
  cases hb : s.backing with
  | null =>
    have := hs.null (base_eq_none_iff.2 hb)
    rw [List.length_nil]
    omega
  | owned st => exact length_read _ _ _
  | external f => exact length_read _ _ _

/-- A slice has as many bytes as it says. -/
theorem WF.length_bytes {s : Slice α} (hs : s.WF) (w : World α) :
    (s.bytes w).length = s.dataSize := by
  refine hs.length_load w ?_
  have := hs.data_le
  have := hs.reservable_le
  rw [dataSize]
  omega

theorem WF.reservable_eq_zero {s : Slice α} (hs : s.WF) (h : s.dataSize = 0) :
    s.reservable = 0 := by
  have := hs.data_eq_zero h
  rw [dataSize] at h
  omega

/-- It has none exactly if its size is zero. -/
theorem WF.bytes_eq_nil_iff {s : Slice α} (hs : s.WF) (w : World α) :
    s.bytes w = [] ↔ s.dataSize = 0 := by
  rw [← List.length_eq_zero_iff, hs.length_bytes w]

/-- Two parts, one behind the other. -/
theorem load_add (s : Slice α) (w : World α) (offset m n : ℕ) :
    s.load w offset (m + n) = s.load w offset m ++ s.load w (offset + m) n := by
  unfold load
  cases s.backing <;> simp [read_add]

/-- A part of the data section. -/
theorem load_data_add (s : Slice α) (w : World α) {k m : ℕ} (h : k + m ≤ s.dataSize) :
    s.load w (s.data + k) m = ((s.bytes w).drop k).take m := by
  have hmin : min m (s.dataSize - k) = m := by omega
  unfold bytes load
  cases s.backing with
  | null => simp
  | owned st => rw [drop_read, take_read, hmin]
  | external f => rw [drop_read, take_read, hmin]

/-- Only the memory of a fragment is shared, so only a change there can show. -/
theorem load_congr {s : Slice α} {w w' : World α}
    (h : ∀ f, s.backing = .external f → w'.fragments f = w.fragments f) (offset len : ℕ) :
    s.load w' offset len = s.load w offset len := by
  unfold load
  cases hb : s.backing with
  | null => rfl
  | owned st => rfl
  | external f => simp only [h f hb]

theorem bytes_congr {s : Slice α} {w w' : World α} (h : w'.fragments = w.fragments) :
    s.bytes w' = s.bytes w :=
  load_congr (fun f _ ↦ by rw [h]) _ _

/-- The bytes of a slice with a storage of its own are its own. -/
theorem load_of_isMutable {s : Slice α} (h : s.isMutable = true) (w w' : World α) (offset len : ℕ) :
    s.load w' offset len = s.load w offset len := by
  obtain ⟨st, hst⟩ := isMutable_iff.1 h
  exact load_congr (fun f hf ↦ by simp [hst] at hf) _ _

@[simp] theorem bytes_log (s : Slice α) (w : World α) (es : List Event) :
    s.bytes (w.log es) = s.bytes w := rfl

/-! ### What the functions do to a well-formed slice

One lemma for each function, which says what the slice and the world are afterwards. Where a
function writes, it writes behind the data, so the bytes that are there stay.
-/

theorem base_store (s : Slice α) (w : World α) (offset : ℕ) (bs : List α) :
    (s.store w offset bs).1.base = s.base := by
  unfold store base
  cases hb : s.backing <;> simp [hb]

@[simp] theorem store_nil (s : Slice α) (w : World α) (offset : ℕ) :
    s.store w offset [] = (s, w) := by
  rcases s with ⟨capacity, backing, data, reservable, drainTrackers, account⟩
  cases backing <;> simp [store]

/-- `store` changes nothing but memory. -/
theorem store_eq (s : Slice α) (w : World α) (offset : ℕ) (bs : List α) :
    (s.store w offset bs).1 = { s with backing := (s.store w offset bs).1.backing } := by
  rw [store]
  cases s.backing <;> rfl

/-- Storing keeps the size of the storage. -/
theorem WF.size_store {s : Slice α} (hs : s.WF) (w : World α) (offset : ℕ) (bs : List α)
    (st : Storage α) (hst : (s.store w offset bs).1.backing = .owned st) :
    st.size = s.capacity := by
  rw [store] at hst
  cases hb : s.backing with
  | null => simp [hb] at hst
  | owned st' =>
    simp only [hb, Backing.owned.injEq] at hst
    exact hst ▸ hs.owned st' hb
  | external f => simp [hb] at hst

/-- A slice with room behind its data owns its storage. -/
theorem WF.owned_of_reservableSize {s : Slice α} (hs : s.WF) (h : s.reservableSize ≠ 0) :
    ∃ st, s.backing = .owned st := by
  cases hb : s.backing with
  | null =>
    have := hs.null (base_eq_none_iff.2 hb)
    rw [reservableSize] at h
    omega
  | owned st => exact ⟨st, rfl⟩
  | external f =>
    have := (hs.external f (base_eq_fragment_iff.2 hb)).1
    rw [reservableSize] at h
    omega

/-- Data placed behind the data section of an owned block. -/
theorem WF.appended {s : Slice α} (hs : s.WF) {st : Storage α} (st' : Storage α)
    (hb : s.backing = .owned st) (hid : st'.id = st.id) (hstorage : st'.size = st.size) {d : List α}
    (hd : d.length ≤ s.reservableSize)
    (hold : ∀ n, s.data + n ≤ s.reservable → read st'.mem s.data n = read st.mem s.data n)
    (hnew : read st'.mem s.reservable d.length = d) :
    s.Appended d { s with backing := .owned st', reservable := s.reservable + d.length } := by
  have hdata := hs.data_le
  have hcap := hs.reservable_le
  have hsize : s.reservable + d.length - s.data = s.reservable - s.data + d.length := by omega
  rw [reservableSize] at hd
  refine { capacity := rfl, drainTrackers := rfl, account := rfl, reservable := rfl,
           dataSize := hsize, base := ?_, wf := ⟨?_, ?_, ?_, ?_, ?_, ?_⟩, bytes := fun w ↦ ?_ }
  · simp [Slice.base, hb, hid]
  · dsimp only
    omega
  · dsimp only
    omega
  · intro h
    exact hs.data_eq_zero (by unfold Slice.dataSize at h ⊢; dsimp only at h; omega)
  · exact fun h ↦ (nomatch h)
  · exact fun f h ↦ (nomatch h)
  · rintro _ ⟨⟩
    exact hstorage.trans (hs.owned st hb)
  · unfold Slice.bytes Slice.load Slice.dataSize
    simp only [hb, hsize]
    rw [read_add, hold _ (by omega), show s.data + (s.reservable - s.data) = s.reservable by omega,
      hnew]

/-- Bytes stored behind the data section do not show, and the memory there is the slice's own. -/
theorem WF.store_behind {s : Slice α} (hs : s.WF) (w : World α) {offset : ℕ}
    (hoffset : s.reservable ≤ offset) {bs : List α} (hbs : bs.length ≤ s.reservableSize) :
    ∃ s', s.store w offset bs = (s', w) ∧ s.Same s' ∧ s'.WF ∧ s'.data = s.data ∧
      s'.reservable = s.reservable ∧ ∀ v, s'.bytes v = s.bytes v := by
  rcases Nat.eq_zero_or_pos bs.length with h0 | hpos
  · obtain rfl := List.length_eq_zero_iff.1 h0
    exact ⟨s, store_nil s w offset, .refl s, hs, rfl, rfl, fun _ ↦ rfl⟩
  · obtain ⟨st, hb⟩ := hs.owned_of_reservableSize (by omega)
    have hbase := base_store s w offset bs
    have hsize := hs.size_store w offset bs
    have hdata := hs.data_le
    rw [store, hb] at hbase hsize ⊢
    refine ⟨_, rfl, ⟨rfl, hbase, rfl, rfl⟩, ⟨hdata, hs.reservable_le, hs.data_eq_zero,
      fun h ↦ (nomatch h), fun f h ↦ (nomatch h), hsize⟩, rfl, rfl, fun v ↦ ?_⟩
    unfold Slice.bytes load dataSize
    simp only [hb]
    exact read_write_of_le _ _ (by omega)

/-- `append` copies what fits and touches nothing outside the slice. -/
theorem WF.append_spec {s : Slice α} (hs : s.WF) (d : List α) (w : World α) :
    ∃ s', s.append d w = (min d.length s.reservableSize, s', w) ∧
      s.Appended (d.take (min d.length s.reservableSize)) s' := by
  rw [append]
  dsimp only
  split_ifs with h
  · rw [h, List.take_zero]
    exact ⟨s, rfl,
      { Same.refl s with wf := hs, reservable := rfl, dataSize := rfl, bytes := by simp }⟩
  · obtain ⟨st, hb⟩ := hs.owned_of_reservableSize (by omega)
    have hlen : (d.take (min d.length s.reservableSize)).length =
        min d.length s.reservableSize := by
      rw [List.length_take]
      omega
    refine ⟨_, by rw [store, hb], ?_⟩
    have := hs.appended { st with mem := write st.mem s.reservable (d.take _) } hb rfl rfl
      (d := d.take (min d.length s.reservableSize)) (by omega)
      (fun n hn ↦ read_write_of_le _ _ hn) (read_write_self _ _ _)
    rwa [hlen] at this

/-- A slice that starts with no data, and has all its room left. -/
structure Fresh (s : Slice α) (capacity : ℕ) (account : Option ℕ) : Prop where
  /-- It is well-formed. -/
  wf : s.WF
  /-- It owns its storage. -/
  owned : s.isMutable = true
  /-- It has no bytes. -/
  bytes : ∀ w, s.bytes w = []
  /-- Its size is zero. -/
  dataSize : s.dataSize = 0
  /-- Its room begins at the front. -/
  reservable : s.reservable = 0
  /-- Its capacity is what was asked for. -/
  capacity : s.capacity = capacity
  /-- It has no tracker. -/
  drainTrackers : s.drainTrackers = []
  /-- It is charged to the account. -/
  account : s.account = account

/-- A new slice is of this kind. -/
theorem fresh_create (n : ℕ) (account : Option ℕ) (w : World α) :
    (create n account w).1.Fresh (sliceSize n) account where
  wf := ⟨Nat.le_refl _, Nat.zero_le _, fun _ ↦ rfl, fun h ↦ (nomatch h), fun _ h ↦ (nomatch h),
    fun | _, rfl => rfl⟩
  owned := rfl
  bytes _ := rfl
  dataSize := rfl
  reservable := rfl
  capacity := rfl
  drainTrackers := rfl
  account := rfl

/-- A partial drain takes bytes off the front. (A slice that is drained whole is popped instead.) -/
theorem WF.drain_spec {s : Slice α} (hs : s.WF) {n : ℕ} (hn : n < s.dataSize) :
    (s.drain n).WF ∧ Same s (s.drain n) ∧ (s.drain n).dataSize = s.dataSize - n ∧
      ∀ w, (s.drain n).bytes w = (s.bytes w).drop n := by
  have hcap := hs.reservable_le
  have hlt : s.data + n < s.reservable := by
    rw [dataSize] at hn
    omega
  have hdrain : s.drain n = { s with data := s.data + n } := by
    rw [drain, if_neg (by omega)]
  rw [hdrain]
  refine ⟨⟨Nat.le_of_lt hlt, hcap, fun h ↦ ?_, hs.null, hs.external, hs.owned⟩,
    ⟨rfl, rfl, rfl, rfl⟩,
    Nat.sub_add_eq _ _ _, fun w ↦ ?_⟩
  · rw [dataSize] at h
    dsimp only at h
    omega
  · unfold Slice.bytes load dataSize
    cases hb : s.backing with
    | null => simp
    | owned st => simp only [drop_read, Nat.sub_add_eq]
    | external f => simp only [drop_read, Nat.sub_add_eq]

/-- A commit of `len` bytes that fit takes what is in memory behind the data. -/
theorem WF.commit_spec {s : Slice α} (hs : s.WF) (w : World α) (r : RawSlice)
    (hlen : r.len ≤ s.reservableSize) :
    s.Appended (s.load w s.reservable r.len) (s.commit false r).1 := by
  have hcommit : (s.commit false r).1 = { s with reservable := s.reservable + r.len } := by
    simp [commit]
  have hload : (s.load w s.reservable r.len).length = r.len := by
    refine hs.length_load w ?_
    have := hs.reservable_le
    rw [reservableSize] at hlen
    omega
  rw [hcommit]
  rcases Nat.eq_zero_or_pos r.len with h0 | hpos
  · have hnil : s.load w s.reservable r.len = [] := List.length_eq_zero_iff.1 (hload.trans h0)
    rw [hnil, h0]
    exact { Same.refl s with wf := hs, reservable := rfl, dataSize := rfl, bytes := by simp }
  · obtain ⟨st, hb⟩ := hs.owned_of_reservableSize (by omega)
    have := hs.appended (d := s.load w s.reservable r.len) st hb rfl rfl (by omega) (fun n _ ↦ rfl)
      (by rw [hload, load, hb])
    rw [hload] at this
    rwa [← hb] at this

/-- What is appended to such a slice is all that it has. -/
theorem Fresh.appended {s s' : Slice α} {c : ℕ} {account : Option ℕ} {d : List α}
    (hs : s.Fresh c account) (h : s.Appended d s') :
    s'.WF ∧ s'.isMutable = true ∧ (∀ w, s'.bytes w = d) ∧ s'.capacity = c ∧ s'.drainTrackers = [] ∧
      s'.account = account :=
  ⟨h.wf, (isMutable_eq_of_base h.base).trans hs.owned,
    fun w ↦ by rw [h.bytes, hs.bytes, List.nil_append],
    h.capacity.trans hs.capacity, h.drainTrackers.trans hs.drainTrackers,
      h.account.trans hs.account⟩

/-! ### Writing in front of the data

`prepend` is the only function that may write to memory which is not the slice's own: that of a
fragment, in front of what is left of it.
-/

/-- The number of bytes that `prepend` copies. -/
def prependSize (s : Slice α) (n : ℕ) : ℕ :=
  if s.dataSize = 0 then min n s.capacity else min n s.data

/-- What a write through a slice over fragment memory can change: only that memory, and only to
bytes of `d`. -/
structure Overwrites (s : Slice α) (d : List α) (w w' : World α) : Prop where
  /-- Only the memory of fragments changes. -/
  eq : w' = { w with fragments := w'.fragments }
  /-- Only the fragment under the slice is written to. -/
  fragments : ∀ f, s.base ≠ some (.fragment f) → w'.fragments f = w.fragments f
  /-- What is read anywhere was there before or was written. -/
  mem_load : ∀ (t : Slice α) offset len x, x ∈ t.load w' offset len → x ∈ d ∨
    x ∈ t.load w offset len

theorem overwrites_refl (s : Slice α) (d : List α) (w : World α) : s.Overwrites d w w :=
  ⟨rfl, fun _ _ ↦ rfl, fun _ _ _ _ h ↦ .inr h⟩

/-- A store writes nothing else. -/
theorem overwrites_store (s : Slice α) (w : World α) (offset : ℕ) {d bs : List α} (hbs : bs ⊆ d) :
    s.Overwrites d w (s.store w offset bs).2 := by
  rw [store]
  cases hb : s.backing with
  | null => exact overwrites_refl s d w
  | owned st => exact overwrites_refl s d w
  | external f =>
    refine ⟨rfl, fun g hg ↦ Function.update_of_ne ?_ _ _, fun t o len x hx ↦ ?_⟩
    · rintro rfl
      exact hg (base_eq_fragment_iff.2 hb)
    · unfold load at hx ⊢
      cases ht : t.backing with
      | null => simp [ht] at hx
      | owned st => exact .inr (by simpa only [ht] using hx)
      | external g =>
        simp only [ht] at hx
        rcases eq_or_ne g f with rfl | hne
        · rw [Function.update_self] at hx
          exact (mem_read_write hx).imp_left (hbs ·)
        · rw [Function.update_of_ne hne] at hx
          exact .inr hx

/-- A slice that is over no fragment leaves the world alone. -/
theorem overwrites_eq_self {s : Slice α} {d : List α} {w w' : World α} (h : s.Overwrites d w w')
    (hs : ∀ f, s.base ≠ some (.fragment f)) : w' = w := by
  have hfragments : w'.fragments = w.fragments := funext fun f ↦ h.fragments f (hs f)
  rw [h.eq, hfragments]

/-- Bytes stored in front of the data section. The memory is the slice's own or that of a
fragment. -/
theorem WF.prepended {s : Slice α} (hs : s.WF) (w : World α) (bs : List α)
    (hbs : bs.length ≤ s.data) (hsize : s.dataSize ≠ 0) :
    s.Prepended bs w { (s.store w (s.data - bs.length) bs).1 with data := s.data - bs.length }
      (s.store w (s.data - bs.length) bs).2 := by
  have hcap := hs.reservable_le
  have hlt : s.data < s.reservable := by
    rw [dataSize] at hsize
    omega
  have hsum : s.reservable - (s.data - bs.length) = bs.length + (s.reservable - s.data) := by omega
  have hread (mem : ℕ → α) :
      read (write mem (s.data - bs.length) bs) (s.data - bs.length)
        (bs.length + (s.reservable - s.data)) = bs ++ read mem s.data (s.reservable - s.data) := by
    rw [read_add, read_write_self, Nat.sub_add_cancel hbs, read_write_of_ge _ (by omega)]
  have hbase := base_store s w (s.data - bs.length) bs
  rw [store_eq] at hbase ⊢
  have hdata : (Slice.mk s.capacity (s.store w (s.data - bs.length) bs).1.backing
      (s.data - bs.length) s.reservable s.drainTrackers s.account).dataSize =
        s.dataSize + bs.length := by
    unfold dataSize
    dsimp only
    omega
  refine ⟨⟨rfl, hbase, rfl, rfl⟩, ⟨?_, hcap, fun h ↦ ?_, fun h ↦ hs.null (hbase.symm.trans h),
    fun f h ↦ hs.external f (hbase.symm.trans h), hs.size_store w _ bs⟩, hdata, ?_⟩
  · show s.data - bs.length ≤ s.reservable
    omega
  · exact absurd (Nat.eq_zero_of_add_eq_zero_right (hdata.symm.trans h)) hsize
  · unfold Slice.bytes load Slice.dataSize
    dsimp only
    rw [hsum]
    rw [store]
    -- a slice with data has memory, its own or that of a fragment
    cases hb : s.backing with
    | null =>
      have := hs.null (base_eq_none_iff.2 hb)
      omega
    | owned st => exact hread st.mem
    | external f =>
      simp only [hb, Function.update_self]
      exact hread (w.fragments f)

/-- Bytes stored at the end of an empty block. -/
theorem WF.prepended_of_empty {s : Slice α} (hs : s.WF) (w : World α) (bs : List α)
    (hbs : bs.length ≤ s.capacity) (hsize : s.dataSize = 0) (hne : s.capacity = 0 ∨ bs ≠ []) :
    s.Prepended bs w
      { (s.store w (s.capacity - bs.length) bs).1 with
        reservable := s.capacity, data := s.capacity - bs.length }
      (s.store w (s.capacity - bs.length) bs).2 := by
  have hbase := base_store s w (s.capacity - bs.length) bs
  have hnil : s.bytes w = [] := (hs.bytes_eq_nil_iff w).2 hsize
  rw [store_eq] at hbase ⊢
  have hdata : (Slice.mk s.capacity (s.store w (s.capacity - bs.length) bs).1.backing
      (s.capacity - bs.length) s.capacity s.drainTrackers s.account).dataSize =
        s.dataSize + bs.length := by
    rw [hsize]
    rw [dataSize]
    dsimp only
    omega
  refine ⟨⟨rfl, hbase, rfl, rfl⟩, ⟨Nat.sub_le _ _, Nat.le_refl _, fun h ↦ ?_,
    fun h ↦ hs.null (hbase.symm.trans h), fun f h ↦ ⟨rfl, (hs.external f (hbase.symm.trans h)).2⟩,
    hs.size_store w _ bs⟩,
    hdata, ?_⟩
  -- it stays empty only if there is nothing to store, and so no room
  · show s.capacity - bs.length = 0
    have hlen : bs.length = 0 := Nat.eq_zero_of_add_eq_zero_left (hdata.symm.trans h)
    rcases hne with hcap | hne
    · omega
    · exact absurd (List.length_eq_zero_iff.1 hlen) hne
  · have hlen : s.capacity - (s.capacity - bs.length) = bs.length := by omega
    rw [hnil, List.append_nil]
    rw [Slice.bytes, load, Slice.dataSize]
    dsimp only
    rw [hlen]
    rw [store]
    cases hb : s.backing with
    | null =>
      have := hs.null (base_eq_none_iff.2 hb)
      have hbs : bs = [] := List.length_eq_zero_iff.1 (by omega)
      simp only [hb, hbs]
    | owned st => exact read_write_self _ _ _
    | external f => simp only [hb, Function.update_self, read_write_self]

/-- `prepend` copies the end of `d`. It leaves the world alone unless it writes into the drained
part of a fragment. -/
theorem WF.prepend_spec {s : Slice α} (hs : s.WF) {d : List α} (hd : d ≠ []) (w : World α) :
    ∃ s' w', s.prepend d w = (s.prependSize d.length, s', w') ∧
      s.Prepended (d.drop (d.length - s.prependSize d.length)) w s' w' ∧ s.Overwrites d w w' ∧
      ((∀ f, s.base = some (.fragment f) → s.dataSize = 0 ∨ s.data = 0) → w' = w) := by
  have hpos : 0 < d.length := List.length_pos_of_ne_nil hd
  have hlen {k : ℕ} (hk : k ≤ d.length) : (d.drop (d.length - k)).length = k := by
    rw [List.length_drop]
    omega
  have hsub (k : ℕ) : d.drop (d.length - k) ⊆ d := List.drop_subset _ _
  rw [prepend, prependSize]
  by_cases h0 : s.dataSize = 0
  · have hroom : s.reservableSize = s.capacity := by
      rw [reservableSize, hs.reservable_eq_zero h0, Nat.sub_zero]
    simp only [if_pos h0, hroom]
    have hbs := hlen (Nat.min_le_left d.length s.capacity)
    have hp := hs.prepended_of_empty w (d.drop (d.length - min d.length s.capacity))
      (by omega) h0 (by
        rw [← List.length_pos_iff]
        omega)
    rw [hbs] at hp
    refine ⟨_, _, rfl, hp, overwrites_store s w _ (hsub _), fun _ ↦ ?_⟩
    -- An empty slice over a fragment has no capacity, so it is written no byte.
    rcases Nat.eq_zero_or_pos s.capacity with hc | hc
    · have hnil : d.drop (d.length - min d.length s.capacity) = [] :=
        List.length_eq_zero_iff.1 (by omega)
      rw [hnil]
      rw [store]
      cases s.backing <;> simp
    · refine overwrites_eq_self (overwrites_store s w _ (hsub _)) fun f hf ↦ ?_
      have := (hs.external f hf).1
      have := hs.reservable_eq_zero h0
      omega
  · simp only [if_neg h0]
    by_cases hdata : s.data = 0
    · simp only [hdata, Nat.min_zero, Nat.sub_zero, List.drop_length]
      exact ⟨s, w, rfl, { Same.refl s with wf := hs, dataSize := rfl, bytes := rfl },
        overwrites_refl s d w, fun _ ↦ rfl⟩
    · simp only [if_neg hdata]
      have hbs := hlen (Nat.min_le_left d.length s.data)
      have hp := hs.prepended w (d.drop (d.length - min d.length s.data)) (by omega) h0
      rw [hbs] at hp
      refine ⟨_, _, rfl, hp, overwrites_store s w _ (hsub _), fun h ↦ ?_⟩
      refine overwrites_eq_self (overwrites_store s w _ (hsub _)) fun f hf ↦ ?_
      rcases h f hf with h | h
      · exact h0 h
      · exact hdata h

end Slice

end TcpServer.Buffer
