import TcpServer.Buffer.Transfers
import Mathlib.Data.List.DropRight

/-!
# Reservations

A reservation lends a caller memory to write to before it becomes part of the buffer. Its slices are
addresses. The memory behind the first one may be the room behind the last slice of the buffer; that
behind the others is in storages which the reservation owns, in a vector that runs parallel to the
slices and has an empty entry where the buffer owns the memory.

`commit` takes a prefix of the reservation into the buffer, and the owner gives the storages that
are left back, to the free list if they are of the default size.

What the buffer and the reservation have to do with each other between `reserve` and `commit` is
`Backed`. It is all that a commit needs, so whatever keeps it may happen in between.

A reservation is taken apart into two parts that have little to do with each other: the room behind
the last slice, which it only points to (`reserveBehind_spec`), and the storages that it owns
(`LendsNew`). The commit goes over both with one loop. What the loop does to the accounting
(`CommitRun.extends`) holds for any slices and storages; that it appends what was written
(`commit_backed`) needs the buffer to back the reservation.
-/

namespace TcpServer.Buffer

variable {α : Type*}

/-- `Slice::SizedStorage`. -/
structure SizedStorage (α : Type*) where
  /-- The memory, null when the buffer owns it or has taken it. -/
  mem : Option (Storage α) := none
  /-- Its size. -/
  len : ℕ := 0

/-- The two kinds of `OwnedImplReservationSlicesOwner`. -/
inductive SlicesOwner (α : Type*)
  | multiple (ownedStorages : List (SizedStorage α))
  | single (ownedStorage : SizedStorage α)

/-- `Reservation`. -/
structure Reservation (α : Type*) where
  /-- The slices that the caller may write to. -/
  slices : List RawSlice := []
  /-- Their total length. -/
  length : ℕ := 0
  /-- `slices_owner_`. -/
  slicesOwner : Option (SlicesOwner α) := none

/-- `ReservationSingleSlice`. -/
structure ReservationSingleSlice (α : Type*) where
  /-- The slice that the caller may write to. -/
  slice : RawSlice := ⟨none, 0⟩
  /-- `slice_owner_`. -/
  sliceOwner : Option (SlicesOwner α) := none

/-- The length of a read reservation. -/
def defaultReadReservationSize : ℕ := maxSlices * Slice.defaultSliceSize

/-- The length of the slice. -/
def ReservationSingleSlice.length (r : ReservationSingleSlice α) : ℕ := r.slice.len

namespace SlicesOwner

/-- `owned_storages_`, or the one storage. -/
def ownedStorages : SlicesOwner α → List (SizedStorage α)
  | .multiple ownedStorages => ownedStorages
  | .single ownedStorage => [ownedStorage]

/-- `OwnedImplReservationSlicesOwnerMultiple::newStorage`. -/
def newStorage (w : World α) : SizedStorage α × World α :=
  match w.freeList.getLast? with
  | some storage =>
    (⟨some storage, Slice.defaultSliceSize⟩, { w with freeList := w.freeList.dropLast })
  | none =>
    let (storage, w) := w.allocate Slice.defaultSliceSize
    (⟨some storage, Slice.defaultSliceSize⟩, w)

/-- A storage goes to the free list, unless that is full. -/
def recycle (w : World α) (storage : SizedStorage α) : World α :=
  match storage.mem with
  | some mem =>
    if w.freeList.length < freeListMax then { w with freeList := w.freeList ++ [mem] } else w
  | none => w

/-- The destructors. -/
def destroy (owner : SlicesOwner α) (w : World α) : World α :=
  match owner with
  | .multiple ownedStorages => ownedStorages.reverse.foldl recycle w
  | .single _ => w

/-- The owner after some of its storages were moved from. -/
def withStorages (owner : SlicesOwner α) (storages : List (SizedStorage α)) : SlicesOwner α :=
  match owner with
  | .multiple _ => .multiple storages
  | .single storage => .single (storages.headD storage)

end SlicesOwner

namespace OwnedImpl

/-- `while (!slices_.empty() && slices_.back().dataSize() == 0) slices_.pop_back()`. -/
def popEmptyBack : ℕ → SliceDeque α → World α → SliceDeque α × World α
  | 0, q, w => (q, w)
  | fuel + 1, q, w =>
    if ¬q.isEmpty ∧ q.back.dataSize = 0 then
      let (q, w) := q.popBack w
      popEmptyBack fuel q w
    else (q, w)

/-- The loop of `reserveWithMaxLength`, at most one iteration for each slice of the reservation. -/
def reserveLoop : ℕ → ℕ → ℕ → List RawSlice → List (SizedStorage α) → World α →
    List RawSlice × List (SizedStorage α) × ℕ × World α
  | 0, _, reserved, slices, storages, w => (slices, storages, reserved, w)
  | fuel + 1, bytesRemaining, reserved, slices, storages, w =>
    if bytesRemaining ≠ 0 ∧ slices.length < maxSlices then
      let size := Slice.defaultSliceSize
      -- A reservation is not made larger than requested, unless it would be less than one slice.
      if size > bytesRemaining ∧ reserved ≥ size then (slices, storages, reserved, w)
      else
        let (storage, w) := SlicesOwner.newStorage w
        let rawSlice : RawSlice := ⟨storage.mem.map fun mem ↦ (.storage mem.id, 0), size⟩
        reserveLoop fuel (bytesRemaining - min rawSlice.len bytesRemaining)
          (reserved + rawSlice.len) (slices ++ [rawSlice]) (storages ++ [storage]) w
    else (slices, storages, reserved, w)

/-- The part of a reservation that is behind the last slice of the buffer, if that is worth it. -/
def reserveBehind (q : SliceDeque α) (maxLength : ℕ) : List RawSlice × List (SizedStorage α) × ℕ :=
  let reservableSize := if q.isEmpty then 0 else q.back.reservableSize
  if reservableSize ≥ maxLength ∨ reservableSize ≥ Slice.defaultSliceSize / 8 then
    let slice := q.back.reserve (min reservableSize maxLength)
    ([slice], [{}], slice.len)
  else ([], [], 0)

/-- `reserveWithMaxLength`. -/
def reserveWithMaxLength (b : OwnedImpl α) (maxLength : ℕ) (w : World α) :
    Reservation α × OwnedImpl α × World α :=
  if maxLength = 0 then ({}, b, w)
  else
    let (q, w) := popEmptyBack b.slices.size b.slices w
    let (slices, storages, reserved) := reserveBehind q maxLength
    let (slices, storages, reserved, w) :=
      reserveLoop maxSlices (maxLength - reserved) reserved slices storages w
    ({ slices, length := reserved, slicesOwner := some (.multiple storages) },
      { b with slices := q }, w)

/-- `reserveForRead`. -/
def reserveForRead (b : OwnedImpl α) (w : World α) : Reservation α × OwnedImpl α × World α :=
  b.reserveWithMaxLength defaultReadReservationSize w

/-- `reserveSingleSlice`. -/
def reserveSingleSlice (b : OwnedImpl α) (length : ℕ) (separateSlice : Bool) (w : World α) :
    ReservationSingleSlice α × OwnedImpl α × World α :=
  if length = 0 then ({}, b, w)
  else
    let (q, w) := popEmptyBack b.slices.size b.slices w
    let reservableSize := if separateSlice ∨ q.isEmpty then 0 else q.back.reservableSize
    if reservableSize ≥ length then
      ({ slice := q.back.reserve length, sliceOwner := some (.single {}) }, { b with slices := q },
        w)
    else
      let (storage, w) := w.allocate (sliceSize length)
      ({ slice := ⟨some (.storage storage.id, 0), length⟩
         sliceOwner := some (.single ⟨some storage, sliceSize length⟩) },
        { b with slices := q }, w)

/-- The loop of `commit`. The result begins with what is left of the owned storages. Committing to a
slice that did not lend the memory, or more than there is, is not allowed. -/
def commitLoop : List RawSlice → List (SizedStorage α) → ℕ → OwnedImpl α → World α →
    Option (List (SizedStorage α) × OwnedImpl α × World α)
  | slice :: slices, storage :: storages, bytesRemaining, b, w =>
    if bytesRemaining = 0 then some (storage :: storages, b, w)
    else
      let len := min slice.len bytesRemaining
      match storage.mem with
      | some mem =>
        if len > storage.len then none
        else
          let (s, w) := Slice.ofStorage mem storage.len len b.account w
          let (q, w) := b.slices.emplaceBack s w
          (commitLoop slices storages (bytesRemaining - len)
              { b with slices := q, length := b.length + .ofNat len } w).map fun (rest, b, w) ↦
            ({ storage with mem := none } :: rest, b, w)
      | none =>
        let back := b.slices.back
        if b.slices.isEmpty ∨ slice.mem ≠ back.base.map (·, back.reservable) ∨
            back.reservable + len > back.capacity then none
        else
          let (back, _) := back.commit false ⟨slice.mem, len⟩
          (commitLoop slices storages (bytesRemaining - len)
              { b with slices := b.slices.setBack back, length := b.length + .ofNat len } w).map
            fun (rest, b, w) ↦ (storage :: rest, b, w)
  | _, storages, _, b, w => some (storages, b, w)

/-- `commit`, which consumes the owner. -/
def commit (b : OwnedImpl α) (length : ℕ) (slices : List RawSlice) (slicesOwner : SlicesOwner α)
    (w : World α) : Option (OwnedImpl α × World α) :=
  if length = 0 then some (b, slicesOwner.destroy w)
  else
    (commitLoop slices slicesOwner.ownedStorages length b w).map fun (storages, b, w) ↦
      (b, (slicesOwner.withStorages storages).destroy w)

end OwnedImpl

/-! ### Trailing slices without data

Before a reservation is made the slices without data at the end are removed, since what is reserved
has to follow the data.
-/

/-- What is left when the slices without data at the end are removed, and those slices. -/
def kept (l : List (Slice α)) : List (Slice α) := l.rdropWhile (·.dataSize = 0)

/-- The slices that are removed. -/
def trimmed (l : List (Slice α)) : List (Slice α) := l.rtakeWhile (·.dataSize = 0)

theorem kept_append_trimmed (l : List (Slice α)) : kept l ++ trimmed l = l :=
  List.rdropWhile_append_rtakeWhile

theorem dataSizes_kept (l : List (Slice α)) : dataSizes (kept l) = dataSizes l := by
  induction l using List.reverseRecOn with
  | nil => rfl
  | append_singleton l s ih =>
    rcases eq_or_ne s.dataSize 0 with h0 | h0
    · rw [kept, List.rdropWhile_concat_pos _ _ _ (by simpa using h0), dataSizes_append,
        dataSizes_cons, h0]
      exact ih
    · rw [kept, List.rdropWhile_concat_neg _ _ _ (by simpa using h0)]

/-- The content stays. -/
theorem contentOf_kept {l : List (Slice α)} (hl : ∀ s ∈ l, s.WF) (w : World α) :
    contentOf w (kept l) = contentOf w l := by
  have hsplit := kept_append_trimmed l
  have hlen := congrArg dataSizes hsplit
  rw [dataSizes_append, dataSizes_kept] at hlen
  have htrimmed : contentOf w (trimmed l) = [] := by
    rw [← List.length_eq_zero_iff, length_contentOf w]
    · omega
    · intro s hs
      exact hl s (by rw [← hsplit]; exact List.mem_append_right _ hs)
  have := congrArg (contentOf w) hsplit
  rwa [contentOf_append, htrimmed, List.append_nil] at this

/-- The loop removes the slices without data at the end, and releases them from the back. -/
theorem OwnedImpl.popEmptyBack_spec {fuel : ℕ} {q : SliceDeque α} (hfuel : q.toList.length ≤ fuel)
    (w : World α) :
    (popEmptyBack fuel q w).1.toList = kept q.toList ∧
      (popEmptyBack fuel q w).2 = w.log (releases (trimmed q.toList).reverse) ∧
      Evolves (slicesOf q.toList) w (slicesOf (kept q.toList)) (popEmptyBack fuel q w).2 := by
  induction fuel generalizing q w with
  | zero =>
    have hnil : q.toList = [] := List.length_eq_zero_iff.1 (by omega)
    rw [popEmptyBack, hnil]
    exact ⟨rfl, (World.log_nil w).symm, .refl _ _⟩
  | succ fuel ih =>
    rw [popEmptyBack]
    rcases List.eq_nil_or_concat' q.toList with hl | ⟨l, s, hl⟩
    · rw [if_neg (by simp [SliceDeque.isEmpty_iff.2 hl]), hl]
      exact ⟨rfl, (World.log_nil w).symm, .refl _ _⟩
    · have hne : ¬q.isEmpty = true := by simp [SliceDeque.isEmpty_iff, hl]
      rw [SliceDeque.back_of_concat hl]
      rcases eq_or_ne s.dataSize 0 with h0 | h0
      -- `s` is removed, and it is the last of the slices that are trimmed
      · obtain ⟨hpop, hlog⟩ := SliceDeque.popBack_of_concat hl w
        obtain ⟨h₁, h₂, h₃⟩ := ih (q := (q.popBack w).1) (by
          rw [hpop]
          rw [hl, List.length_append, List.length_singleton] at hfuel
          omega) (q.popBack w).2
        rw [hpop, hlog] at h₁ h₂ h₃
        have hkept : kept q.toList = kept l := by
          rw [hl]
          exact List.rdropWhile_concat_pos _ _ _ (by simpa using h0)
        have htrimmed : trimmed q.toList = trimmed l ++ [s] := by
          rw [hl]
          exact List.rtakeWhile_concat_pos _ _ _ (by simpa using h0)
        rw [if_pos ⟨hne, h0⟩, hkept, htrimmed]
        dsimp only
        rw [hlog]
        refine ⟨h₁, ?_, ?_⟩
        · rw [h₂, World.log_log, List.reverse_append]
          rfl
        · have hrelease := (evolves_release s w).frame (slicesOf l)
          rw [← slicesOf_append, add_zero, ← hl] at hrelease
          exact hrelease.trans h₃
      -- `s` has data, so the loop stops and nothing is trimmed
      · have hkept : kept q.toList = q.toList := by
          rw [hl]
          exact List.rdropWhile_concat_neg _ _ _ (by simpa using h0)
        have htrimmed : trimmed q.toList = [] := by
          rw [hl]
          exact List.rtakeWhile_concat_neg _ _ _ (by simpa using h0)
        rw [if_neg (by simp [h0]), hkept, htrimmed]
        exact ⟨rfl, (World.log_nil w).symm, .refl _ _⟩

/-! ### The storages of an owner

The owner of a reservation holds storages. In its destructor each goes to the free list or to the
allocator, and none of them has a tracker or a charge.
-/

/-- The storages that are held. -/
def heldBy (storages : List (SizedStorage α)) : Multiset ℕ :=
  ((storages.filterMap SizedStorage.mem).map Storage.id : List ℕ)

/-- A storage has the size it is recorded with. -/
def SizedStorage.WF (storage : SizedStorage α) : Prop :=
  ∀ mem, storage.mem = some mem → mem.size = storage.len

/-- A storage that may go to the free list. -/
def SizedStorage.Recyclable (storage : SizedStorage α) : Prop :=
  ∀ mem, storage.mem = some mem → mem.size = Slice.defaultSliceSize

/-- The storages of an owner are as they should be; those of the kind with several may go to the
free list. -/
def SlicesOwner.WF : SlicesOwner α → Prop
  | .multiple storages => ∀ storage ∈ storages, storage.WF ∧ storage.Recyclable
  | .single storage => storage.WF

@[simp] theorem heldBy_nil : heldBy ([] : List (SizedStorage α)) = 0 := rfl

theorem heldBy_append (storages storages' : List (SizedStorage α)) :
    heldBy (storages ++ storages') = heldBy storages + heldBy storages' := by
  simp [heldBy]

theorem heldBy_cons (storage : SizedStorage α) (storages : List (SizedStorage α)) :
    heldBy (storage :: storages) = heldBy [storage] + heldBy storages :=
  heldBy_append [storage] storages

theorem heldBy_singleton_of_some {storage : SizedStorage α} {mem : Storage α}
    (h : storage.mem = some mem) : heldBy [storage] = {mem.id} := by
  simp [heldBy, h]

theorem heldBy_singleton_of_none {storage : SizedStorage α} (h : storage.mem = none) :
    heldBy [storage] = 0 := by
  simp [heldBy, h]

/-- Storages taken out of the owner's hands are no longer held. -/
theorem heldBy_perm {storages storages' : List (SizedStorage α)} (h : storages.Perm storages') :
    heldBy storages = heldBy storages' :=
  Multiset.coe_eq_coe.2 ((h.filterMap _).map _)

/-- Storages are freed without any call. -/
theorem evolves_free (held : Multiset ℕ) (w : World α) : Evolves (0, held) w 0 w where
  wf h := h
  world hw := hw
  ledger := .refl _ _
  history := List.prefix_rfl
  separate F hF := by
    refine hF.mono ?_
    rw [blocks_zero, add_zero]
    gcongr
    exact Multiset.le_add_right F _
  fragments := rfl

/-- A storage that goes to the free list stays distinct from the others. -/
theorem evolves_recycle {storage : SizedStorage α} (hstorage : storage.Recyclable) (w : World α) :
    Evolves (0, heldBy [storage]) w 0 (SlicesOwner.recycle w storage) := by
  cases hmem : storage.mem with
  | none =>
    rw [SlicesOwner.recycle, hmem, heldBy_singleton_of_none hmem]
    exact .refl _ _
  | some mem =>
    rw [SlicesOwner.recycle, hmem, heldBy_singleton_of_some hmem]
    dsimp only
    split_ifs with hlt
    · refine ⟨fun h ↦ h, fun hw ↦ ⟨fun st hst ↦ ?_, ?_⟩, .refl _ _, List.prefix_rfl, fun F hF ↦ ?_,
        rfl⟩
      · rcases List.mem_append.1 hst with hst | hst
        · exact hw.size st hst
        · rw [List.mem_singleton.1 hst]
          exact hstorage mem hmem
      · rw [List.length_append, List.length_singleton]
        omega
      · have hblocks : F + Inventory.blocks ((0, {mem.id}) : Inventory α) + w.freeBlocks =
            F + Inventory.blocks (0 : Inventory α) +
              World.freeBlocks { w with freeList := w.freeList ++ [mem] } := by
          simp [Inventory.blocks, World.freeBlocks, add_assoc]
          exact (List.perm_append_singleton _ _).symm
        rwa [← hblocks]
    · exact evolves_free _ w

/-- The owner gives its storages back. -/
theorem SlicesOwner.destroy_evolves {owner : SlicesOwner α} (howner : owner.WF) (w : World α) :
    Evolves (0, heldBy owner.ownedStorages) w 0 (owner.destroy w) := by
  cases owner with
  | single storage => exact evolves_free _ w
  | multiple storages =>
    have hfold (l : List (SizedStorage α)) : (∀ storage ∈ l, storage.Recyclable) → ∀ w : World α,
        Evolves (0, heldBy l) w 0 (l.foldl recycle w) := by
      induction l with
      | nil => exact fun _ w ↦ .refl _ w
      | cons storage l ih =>
        intro hl w
        have hfirst := evolves_recycle (hl storage List.mem_cons_self) w
        have hrest := ih (fun t ht ↦ hl t (List.mem_cons_of_mem storage ht)) (recycle w storage)
        have := (hfirst.frame_right (0, heldBy l)).trans (by rwa [zero_add])
        rw [heldBy_cons]
        simpa using this
    rw [destroy, ownedStorages, heldBy_perm (List.reverse_perm storages).symm]
    exact hfold _ (fun storage h ↦ (howner storage (List.mem_reverse.1 h)).2) w

/-! ### Reserving

The slices of a reservation and the storages of its owner grow together, one storage for each slice.
-/

/-- A new storage is held by whoever has asked for it. -/
theorem evolves_allocate (size : ℕ) (w : World α) :
    Evolves 0 w (0, {w.next}) (w.allocate size).2 where
  wf h := h
  world hw := ⟨hw.1, hw.2⟩
  ledger := .refl _ _
  history := List.prefix_rfl
  separate F hF := by
    have hnew : Distinct (w.next ::ₘ (F + w.freeBlocks)) (w.next + 1) := by
      refine Distinct.allocate ?_
      simpa using hF
    have hblocks : F + Inventory.blocks ((0, {w.next}) : Inventory α) + w.freeBlocks =
        w.next ::ₘ (F + w.freeBlocks) := by
      rw [← Multiset.singleton_add, ← add_assoc, add_comm {w.next} F]
      simp [Inventory.blocks]
    rw [← hblocks] at hnew
    exact hnew
  fragments := rfl

/-- A storage that is handed out belongs to the owner, and comes from the free list or is new. -/
theorem SlicesOwner.newStorage_spec (w : World α) :
    ∃ mem w', newStorage w = (⟨some mem, Slice.defaultSliceSize⟩, w') ∧
      (w.WF → mem.size = Slice.defaultSliceSize) ∧ Evolves 0 w (0, {mem.id}) w' := by
  rw [newStorage]
  cases hlast : w.freeList.getLast? with
  | none =>
    exact ⟨(w.allocate Slice.defaultSliceSize).1, (w.allocate Slice.defaultSliceSize).2, rfl,
      fun _ ↦ rfl, evolves_allocate _ w⟩
  | some storage =>
    have hne : w.freeList ≠ [] := fun hnil ↦ by simp [hnil] at hlast
    have hsplit : w.freeList.dropLast ++ [storage] = w.freeList := by
      have := List.dropLast_append_getLast hne
      rwa [List.getLast_eq_iff_getLast?_eq_some hne |>.2 hlast] at this
    refine ⟨storage, { w with freeList := w.freeList.dropLast }, rfl, fun hw ↦ ?_, fun h ↦ h,
      fun hw ↦ ⟨fun st hst ↦ hw.size st (List.mem_of_mem_dropLast hst), ?_⟩, .refl _ _,
      List.prefix_rfl, fun F hF ↦ ?_, rfl⟩
    · exact hw.size storage (List.mem_of_getLast? hlast)
    · have := hw.length_le
      rw [List.length_dropLast]
      omega
    · have hblocks : F + Inventory.blocks ((0, {storage.id}) : Inventory α) +
          World.freeBlocks { w with freeList := w.freeList.dropLast } =
          F + Inventory.blocks (0 : Inventory α) + w.freeBlocks := by
        rw [World.freeBlocks, World.freeBlocks, ← hsplit]
        simp [Inventory.blocks, add_assoc]
        exact (List.perm_append_singleton _ _).symm
      rwa [hblocks]

/-- The total length of the slices of a reservation. -/
def totalLen (slices : List RawSlice) : ℕ := (slices.map RawSlice.len).sum

@[simp] theorem totalLen_nil : totalLen [] = 0 := rfl

@[simp] theorem totalLen_cons (r : RawSlice) (slices : List RawSlice) :
    totalLen (r :: slices) = r.len + totalLen slices := by
  simp [totalLen]

/-- A slice of a reservation that is the beginning of the storage beside it. -/
def Lends (r : RawSlice) (storage : SizedStorage α) : Prop :=
  ∃ mem, storage.mem = some mem ∧ r.mem = some (.storage mem.id, 0) ∧ 0 < r.len ∧
    r.len ≤ storage.len

/-- What a reservation and its buffer have to do with each other: the first slice may be the room
behind the last slice of the buffer, all others are in storages of the owner. -/
inductive Backed (b : OwnedImpl α) : List RawSlice → List (SizedStorage α) → Prop
  | owned {slices : List RawSlice} {storages : List (SizedStorage α)} :
    List.Forall₂ Lends slices storages → Backed b slices storages
  | behind {l : List (Slice α)} {s : Slice α} {k : ℕ} {slices : List RawSlice}
    {storages : List (SizedStorage α)} :
    b.slices.toList = l ++ [s] → 0 < k → k ≤ s.reservableSize →
      List.Forall₂ Lends slices storages →
      Backed b (⟨s.base.map (·, s.reservable), k⟩ :: slices) ({} :: storages)

/-- A slice has a storage beside it. -/
theorem Backed.length_eq {b : OwnedImpl α} {slices : List RawSlice}
    {storages : List (SizedStorage α)} (h : Backed b slices storages) :
    slices.length = storages.length := by
  cases h with
  | owned h => exact h.length_eq
  | behind _ _ _ h => rw [List.length_cons, List.length_cons, h.length_eq]

/-- The reservation is at most as large as asked for, unless that is less than two slices. -/
def reserveLimit (maxLength : ℕ) : ℕ := max maxLength (2 * Slice.defaultSliceSize - 1)

example : reserveLimit 1 = 32767 := by decide

/-- New slices of a reservation, with the storages behind them. -/
structure LendsNew (w : World α) (slices : List RawSlice) (storages : List (SizedStorage α))
    (w' : World α) : Prop where
  /-- Each slice is the beginning of its storage. -/
  lends : List.Forall₂ Lends slices storages
  /-- The storages are as they should be. -/
  wf : w.WF → ∀ storage ∈ storages, storage.WF ∧ storage.Recyclable
  /-- They come from the free list or the allocator. -/
  evolves : Evolves 0 w (0, heldBy storages) w'

theorem LendsNew.nil (w : World α) : LendsNew w [] [] w :=
  ⟨.nil, fun _ _ h ↦ (nomatch h), .refl _ _⟩

/-- One slice more, with a storage of the default size. -/
theorem LendsNew.cons {w w₁ w' : World α} {mem : Storage α} {slices : List RawSlice}
    {storages : List (SizedStorage α)} (hsize : w.WF → mem.size = Slice.defaultSliceSize)
    (hevolves : Evolves 0 w (0, {mem.id}) w₁) (h : LendsNew w₁ slices storages w') :
    LendsNew w (⟨some (.storage mem.id, 0), Slice.defaultSliceSize⟩ :: slices)
      (⟨some mem, Slice.defaultSliceSize⟩ :: storages) w' where
  lends := .cons ⟨mem, rfl, rfl, Nat.zero_lt_succ _, Nat.le_refl _⟩ h.lends
  wf hw storage hst := by
    rcases List.mem_cons.1 hst with rfl | hst
    · have hmem (m : Storage α) (hm : some mem = some m) : m.size = Slice.defaultSliceSize :=
        Option.some.inj hm ▸ hsize hw
      exact ⟨hmem, hmem⟩
    · exact h.wf (hevolves.world hw) storage hst
  evolves := by
    rw [heldBy_cons, heldBy_singleton_of_some rfl]
    have := hevolves.trans (by simpa using h.evolves.frame (0, {mem.id}))
    simpa using this

/-- The loop adds storages. The bound is kept since a storage is added only if it is asked for in
full or less than one storage has been reserved so far. -/
theorem OwnedImpl.reserveLoop_spec (fuel remaining reserved : ℕ) (slices : List RawSlice)
    (storages : List (SizedStorage α)) (w : World α) :
    ∃ rs sts w', reserveLoop fuel remaining reserved slices storages w =
        (slices ++ rs, storages ++ sts, reserved + totalLen rs, w') ∧ LendsNew w rs sts w' ∧
      (slices.length ≤ maxSlices → slices.length + rs.length ≤ maxSlices) ∧
      (∀ m, reserved ≤ reserveLimit m → (remaining = 0 ∨ reserved + remaining = m) →
        reserved + totalLen rs ≤ reserveLimit m) ∧
      (0 < fuel → remaining ≠ 0 → slices = [] → reserved = 0 → rs ≠ []) := by
  have hstop : (slices, storages, reserved, w) =
      (slices ++ [], storages ++ [], reserved + totalLen [], w) := by simp
  induction fuel generalizing remaining reserved slices storages w with
  | zero =>
    refine ⟨[], [], w, hstop, .nil w, fun h ↦ h, fun _ h _ ↦ h, fun h ↦ ?_⟩
    exact absurd h (Nat.lt_irrefl 0)
  | succ fuel ih =>
    rw [reserveLoop]
    dsimp only
    split_ifs with hmore hover
    -- the next storage would be too much, and one storage or more is reserved already
    · refine ⟨[], [], w, hstop, .nil w, fun h ↦ h, fun _ h _ ↦ h, fun _ _ _ h0 ↦ ?_⟩
      rw [h0, Slice.defaultSliceSize] at hover
      omega
    · obtain ⟨mem, w₁, hnew, hsize, hevolves⟩ := SlicesOwner.newStorage_spec w
      obtain ⟨rs, sts, w', hloop, hlends, hcount, hlimit, -⟩ :=
        ih (remaining - min Slice.defaultSliceSize remaining) (reserved + Slice.defaultSliceSize)
          (slices ++ [⟨some (.storage mem.id, 0), Slice.defaultSliceSize⟩])
          (storages ++ [⟨some mem, Slice.defaultSliceSize⟩]) w₁ (by simp)
      refine ⟨_, _, w', ?_, hlends.cons hsize hevolves, fun _ ↦ ?_, fun m hle hm ↦ ?_,
        fun _ _ _ _ ↦ List.cons_ne_nil _ _⟩
      · rw [hnew]
        dsimp only [Option.map_some]
        rw [hloop]
        simp [Nat.add_assoc]
      · rw [List.length_append, List.length_singleton] at hcount
        rw [List.length_cons]
        omega
      · have := hlimit m (by
          unfold reserveLimit Slice.defaultSliceSize at *
          omega) (by omega)
        rw [totalLen_cons]
        dsimp only
        omega
    -- nothing remains to reserve, or there are as many slices as a reservation can have
    · refine ⟨[], [], w, hstop, .nil w, fun h ↦ h, fun _ h _ ↦ h, fun _ hne hnil _ ↦ ?_⟩
      refine absurd ⟨hne, ?_⟩ hmore
      rw [hnil]
      exact Nat.zero_lt_succ _

/-- What making a reservation does. -/
structure Reserves (b : OwnedImpl α) (w : World α) (slices : List RawSlice) (owner : SlicesOwner α)
    (b' : OwnedImpl α) (w' : World α) : Prop where
  /-- The account of the buffer stays. -/
  account : b'.account = b.account
  /-- So does its length. -/
  length : b'.length = b.length
  /-- It has lost the slices without data at its end. -/
  toList : b'.slices.toList = kept b.slices.toList
  /-- It backs the reservation. -/
  backed : Backed b' slices owner.ownedStorages
  /-- The owner is in order. -/
  ownerWF : w.WF → owner.WF
  /-- The slices evolve, and the storages are held by the owner. -/
  evolves : Evolves (slicesOf b.slices.toList) w
    (slicesOf b'.slices.toList + (0, heldBy owner.ownedStorages)) w'

namespace OwnedImpl

variable {b : OwnedImpl α}

/-- The first slice is taken behind the last slice of the buffer if there is enough room. -/
theorem reserveBehind_spec (q : SliceDeque α) {maxLength : ℕ} (hpos : 0 < maxLength) :
    reserveBehind q maxLength = ([], [], 0) ∨
      ∃ l s k, q.toList = l ++ [s] ∧ 0 < k ∧ k ≤ s.reservableSize ∧ k ≤ maxLength ∧
        reserveBehind q maxLength = ([⟨s.base.map (·, s.reservable), k⟩], [{}], k) := by
  rw [reserveBehind]
  dsimp only
  rcases List.eq_nil_or_concat' q.toList with hl | ⟨l, s, hl⟩
  · rw [if_pos (SliceDeque.isEmpty_iff.2 hl), if_neg]
    · exact .inl rfl
    · rw [Slice.defaultSliceSize]
      omega
  · have hne : ¬q.isEmpty = true := by simp [SliceDeque.isEmpty_iff, hl]
    rw [if_neg hne, SliceDeque.back_of_concat hl]
    split_ifs with h
    · rw [Slice.defaultSliceSize] at h
      have hroom : s.capacity - s.reservable = s.reservableSize := rfl
      refine .inr ⟨l, s, min s.reservableSize maxLength, hl, by omega, Nat.min_le_left _ _,
        Nat.min_le_right _ _, ?_⟩
      rw [Slice.reserve, if_neg (by omega), if_neg (by omega), hroom, Nat.min_eq_left]
      exact Nat.min_le_left _ _
    · exact .inl rfl

/-- `reserveWithMaxLength` reserves at least one slice and at most eight, and not more than is asked
for but to fill one slice. -/
theorem reserveWithMaxLength_spec {maxLength : ℕ} (hpos : 0 < maxLength) (w : World α) :
    ∃ r owner b' w', b.reserveWithMaxLength maxLength w = (r, b', w') ∧
      r.slicesOwner = some owner ∧ Reserves b w r.slices owner b' w' ∧
      r.length = totalLen r.slices ∧ r.slices ≠ [] ∧ r.slices.length ≤ maxSlices ∧
      r.length ≤ reserveLimit maxLength := by
  obtain ⟨hkept, -, hevolves⟩ :=
    popEmptyBack_spec (Nat.le_of_eq b.slices.length_toList) w
  rw [reserveWithMaxLength]
  rw [if_neg (by omega)]
  generalize popEmptyBack b.slices.size b.slices w = popped at hkept hevolves
  obtain ⟨q, w₁⟩ := popped
  dsimp only at hkept hevolves ⊢
  have hlimit_pos : maxLength ≤ reserveLimit maxLength := Nat.le_max_left _ _
  rcases reserveBehind_spec q hpos with hnone | ⟨l, s, k, hl, hk, hroom, hkmax, hsome⟩
  -- nothing is taken behind the buffer, so the loop adds at least one storage
  · obtain ⟨rs, sts, w', hloop, hlends, hcount, hlimit, hne⟩ :=
      reserveLoop_spec maxSlices (maxLength - 0) 0 [] [] w₁
    rw [hnone]
    dsimp only
    rw [hloop]
    simp only [List.nil_append, Nat.zero_add] at hlimit ⊢
    refine ⟨_, .multiple sts, _, _, rfl, rfl,
      ⟨rfl, rfl, hkept, .owned hlends.lends, fun hw ↦ hlends.wf (hevolves.world hw), ?_⟩, rfl,
      hne (Nat.zero_lt_succ _) (by omega) rfl rfl, ?_, hlimit _ (Nat.zero_le _) (.inr rfl)⟩
    · rw [SlicesOwner.ownedStorages]
      dsimp only
      rw [hkept]
      exact hevolves.trans (by simpa using hlends.evolves.frame (slicesOf (kept b.slices.toList)))
    · have := hcount (Nat.zero_le _)
      rwa [List.length_nil, Nat.zero_add] at this
  -- the first slice is room of the buffer; the owner has an empty storage in its place
  · obtain ⟨rs, sts, w', hloop, hlends, hcount, hlimit, -⟩ :=
      reserveLoop_spec maxSlices (maxLength - k) k [⟨s.base.map (·, s.reservable), k⟩] [{}] w₁
    rw [hsome]
    dsimp only
    rw [hloop]
    simp only [List.singleton_append]
    refine ⟨_, .multiple ({} :: sts), _, _, rfl, rfl,
      ⟨rfl, rfl, hkept, .behind hl hk hroom hlends.lends, fun hw st hst ↦ ?_, ?_⟩, ?_,
      List.cons_ne_nil _ _, ?_, hlimit _ (by omega) (.inr (by omega))⟩
    · rcases List.mem_cons.1 hst with rfl | hst
      · exact ⟨fun _ h ↦ (nomatch h), fun _ h ↦ (nomatch h)⟩
      · exact hlends.wf (hevolves.world hw) st hst
    · rw [SlicesOwner.ownedStorages, heldBy_cons, heldBy_singleton_of_none rfl, zero_add]
      dsimp only
      rw [hkept]
      exact hevolves.trans (by simpa using hlends.evolves.frame (slicesOf (kept b.slices.toList)))
    · rw [totalLen_cons]
    · rw [List.length_cons, Nat.add_comm]
      exact hcount (Nat.le_add_left 1 7)

/-- `reserveSingleSlice` reserves one slice of the length that is asked for. -/
theorem reserveSingleSlice_spec {length : ℕ} (hpos : 0 < length) (hlen : length ≤ maxSliceSize)
    (separateSlice : Bool) (w : World α) :
    ∃ r owner b' w', b.reserveSingleSlice length separateSlice w = (r, b', w') ∧
      r.sliceOwner = some owner ∧ Reserves b w [r.slice] owner b' w' ∧ r.slice.len = length := by
  obtain ⟨hkept, -, hevolves⟩ :=
    popEmptyBack_spec (Nat.le_of_eq b.slices.length_toList) w
  rw [reserveSingleSlice]
  rw [if_neg (by omega)]
  generalize popEmptyBack b.slices.size b.slices w = popped at hkept hevolves
  obtain ⟨q, w₁⟩ := popped
  dsimp only at hkept hevolves ⊢
  -- Whatever room there is behind the last slice, it may be passed over.
  have hnew : ∃ (r : ReservationSingleSlice α) (owner : SlicesOwner α) (b' : OwnedImpl α)
      (w' : World α), (ReservationSingleSlice.mk ⟨some (.storage w₁.next, 0), length⟩
        (some (.single ⟨some (w₁.allocate (sliceSize length)).1, sliceSize length⟩)),
        { b with slices := q }, (w₁.allocate (sliceSize length)).2) =
        (r, b', w') ∧ r.sliceOwner = some owner ∧ Reserves b w [r.slice] owner b' w' ∧
          r.slice.len = length := by
    refine ⟨_, _, _, _, rfl, rfl, ⟨rfl, rfl, hkept,
      .owned (.cons ⟨_, rfl, rfl, hpos, le_sliceSize hlen⟩ .nil), ?_, ?_⟩, rfl⟩
    · rintro _ _ ⟨⟩
      rfl
    · rw [SlicesOwner.ownedStorages, heldBy_singleton_of_some rfl]
      dsimp only
      rw [hkept]
      have := (evolves_allocate (sliceSize length) w₁).frame (slicesOf (kept b.slices.toList))
      rw [add_zero] at this
      exact hevolves.trans this
  rcases List.eq_nil_or_concat' q.toList with hl | ⟨l, s, hl⟩
  · have hempty : separateSlice = true ∨ q.isEmpty = true := .inr (SliceDeque.isEmpty_iff.2 hl)
    simp only [if_pos hempty, if_neg (by omega : ¬0 ≥ length)]
    exact hnew
  · rw [SliceDeque.back_of_concat hl]
    by_cases hsep : separateSlice = true ∨ q.isEmpty = true
    · simp only [if_pos hsep, if_neg (by omega : ¬0 ≥ length)]
      exact hnew
    · by_cases hfits : s.reservableSize ≥ length
      · have hroom : s.capacity - s.reservable = s.reservableSize := rfl
        have hreserve : s.reserve length = ⟨s.base.map (·, s.reservable), length⟩ := by
          rw [Slice.reserve, if_neg (by omega), if_neg (by omega), hroom, Nat.min_eq_left hfits]
        simp only [if_neg hsep, if_pos hfits, hreserve]
        refine ⟨_, _, _, _, rfl, rfl, ⟨rfl, rfl, hkept, .behind hl hpos hfits .nil, ?_, ?_⟩, rfl⟩
        · rintro _ _ ⟨⟩
        · rw [SlicesOwner.ownedStorages, heldBy_singleton_of_none rfl]
          dsimp only
          rw [hkept]
          have hzero : ((0, 0) : Inventory α) = 0 := rfl
          rwa [hzero, add_zero]
      · simp only [if_neg hsep, if_neg hfits]
        exact hnew

theorem reserves_of_reserveWithMaxLength {maxLength : ℕ} {r : Reservation α} {b' : OwnedImpl α}
    {w w' : World α} (hpos : 0 < maxLength) (h : b.reserveWithMaxLength maxLength w = (r, b', w')) :
    ∃ owner, r.slicesOwner = some owner ∧ Reserves b w r.slices owner b' w' := by
  obtain ⟨_, owner, _, _, hreserve, howner, hreserves, -⟩ :=
      reserveWithMaxLength_spec (b := b) hpos w
  obtain ⟨rfl, rfl, rfl⟩ := hreserve.symm.trans h
  exact ⟨owner, howner, hreserves⟩

theorem reserves_of_reserveSingleSlice {length : ℕ} {separateSlice : Bool}
    {r : ReservationSingleSlice α}
    {b' : OwnedImpl α} {w w' : World α} (hpos : 0 < length) (hle : length ≤ maxSliceSize)
    (h : b.reserveSingleSlice length separateSlice w = (r, b', w')) :
    ∃ owner, r.sliceOwner = some owner ∧ Reserves b w [r.slice] owner b' w' := by
  obtain ⟨_, owner, _, _, hreserve, howner, hreserves, -⟩ :=
    reserveSingleSlice_spec (b := b) hpos hle separateSlice w
  obtain ⟨rfl, rfl, rfl⟩ := hreserve.symm.trans h
  exact ⟨owner, howner, hreserves⟩

end OwnedImpl

/-! ### Committing

The loop of a commit adopts a storage for each slice that it covers, or commits in the room behind
the last slice where there is none, and stops when the bytes are used up.
-/

theorem SlicesOwner.ownedStorages_withStorages {owner : SlicesOwner α}
    {storages : List (SizedStorage α)} (h : storages.length = owner.ownedStorages.length) :
    (owner.withStorages storages).ownedStorages = storages := by
  cases owner with
  | multiple _ => rfl
  | single storage =>
    obtain ⟨st, rfl⟩ := List.length_eq_one_iff.1 h
    rfl

/-- An owner may be given storages that are as good as its own. -/
theorem SlicesOwner.WF.withStorages {owner : SlicesOwner α} (howner : owner.WF)
    {storages : List (SizedStorage α)} (hlen : storages.length = owner.ownedStorages.length)
    (h : ∀ st ∈ storages, ∃ st' ∈ owner.ownedStorages,
      (st'.WF → st.WF) ∧ (st'.Recyclable → st.Recyclable)) : (owner.withStorages storages).WF := by
  cases owner with
  | multiple storages' =>
    intro st hst
    obtain ⟨st', hst', hwf, hrec⟩ := h st hst
    exact ⟨hwf (howner st' hst').1, hrec (howner st' hst').2⟩
  | single storage =>
    obtain ⟨st, rfl⟩ := List.length_eq_one_iff.1 hlen
    obtain ⟨st', hst', hwf, -⟩ := h st List.mem_cons_self
    obtain rfl := List.mem_singleton.1 hst'
    exact hwf howner

/-- What is left of an owner's storages: some were taken. -/
structure LeftOf (storages rest : List (SizedStorage α)) : Prop where
  /-- There are as many entries. -/
  length : rest.length = storages.length
  /-- Each is what it was or has no memory any more. -/
  mem : ∀ storage ∈ rest, ∃ storage' ∈ storages, storage = storage' ∨ storage.mem = none

theorem LeftOf.refl (storages : List (SizedStorage α)) : LeftOf storages storages :=
  ⟨rfl, fun storage h ↦ ⟨storage, h, .inl rfl⟩⟩

theorem LeftOf.cons {storage storage' : SizedStorage α} {storages rest : List (SizedStorage α)}
    (h : storage' = storage ∨ storage'.mem = none) (hrest : LeftOf storages rest) :
    LeftOf (storage :: storages) (storage' :: rest) := by
  refine ⟨congrArg (· + 1) hrest.length, fun st hst ↦ ?_⟩
  rcases List.mem_cons.1 hst with rfl | hst
  · exact ⟨storage, List.mem_cons_self, h⟩
  · obtain ⟨st', hst', hmem⟩ := hrest.mem st hst
    exact ⟨st', List.mem_cons_of_mem storage hst', hmem⟩

/-- The owner may have what is left. -/
theorem LeftOf.ownerWF {owner : SlicesOwner α} {rest : List (SizedStorage α)}
    (h : LeftOf owner.ownedStorages rest) (howner : owner.WF) : (owner.withStorages rest).WF := by
  refine howner.withStorages h.length fun st hst ↦ ?_
  obtain ⟨st', hst', rfl | hnone⟩ := h.mem st hst
  · exact ⟨st, hst', fun h ↦ h, fun h ↦ h⟩
  · refine ⟨st', hst', fun _ m hm ↦ ?_, fun _ m hm ↦ ?_⟩ <;>
    · rw [hnone] at hm
      cases hm

/-- A run of the loop of `commit`, with what it leaves of the storages, the buffer and the world. -/
inductive CommitRun : List RawSlice → List (SizedStorage α) → ℕ → OwnedImpl α → World α →
    List (SizedStorage α) → OwnedImpl α → World α → Prop
  | done {slices : List RawSlice} {storages : List (SizedStorage α)} {n : ℕ} {b : OwnedImpl α}
    {w : World α} (h : slices = [] ∨ storages = [] ∨ n = 0) :
    CommitRun slices storages n b w storages b w
  /-- The storage becomes a slice of the buffer, and the vector has null in its place. -/
  | adopt {r : RawSlice} {slices : List RawSlice} {storage : SizedStorage α} {mem : Storage α}
    {storages rest : List (SizedStorage α)} {n : ℕ} {b b₁ b' : OwnedImpl α} {w w' : World α}
    (hn : n ≠ 0) (hmem : storage.mem = some mem) (hfits : min r.len n ≤ storage.len)
    (haccount : b₁.account = b.account) (hlength : b₁.length = b.length + .ofNat (min r.len n))
    (hslices : b₁.slices.toList = b.slices.toList ++
      [(Slice.ofStorage mem storage.len (min r.len n) b.account w).1])
    (hrun : CommitRun slices storages (n - min r.len n) b₁
      (Slice.ofStorage mem storage.len (min r.len n) b.account w).2 rest b' w') :
    CommitRun (r :: slices) (storage :: storages) n b w ({ storage with mem := none } :: rest) b' w'
  /-- The bytes are in the room behind the last slice, which keeps its storage. -/
  | fill {r : RawSlice} {slices : List RawSlice} {storage : SizedStorage α}
    {storages rest : List (SizedStorage α)} {n : ℕ} {b b₁ b' : OwnedImpl α} {w w' : World α}
    {l : List (Slice α)} {s : Slice α} (hn : n ≠ 0) (hmem : storage.mem = none)
    (hback : b.slices.toList = l ++ [s]) (hroom : s.reservable + min r.len n ≤ s.capacity)
    (haccount : b₁.account = b.account) (hlength : b₁.length = b.length + .ofNat (min r.len n))
    (hslices : b₁.slices.toList = l ++ [(s.commit false ⟨r.mem, min r.len n⟩).1])
    (hrun : CommitRun slices storages (n - min r.len n) b₁ w rest b' w') :
    CommitRun (r :: slices) (storage :: storages) n b w (storage :: rest) b' w'

/-- What the loop returns comes from a run of this kind. -/
theorem OwnedImpl.commitRun_of_commitLoop {slices : List RawSlice}
    {storages rest : List (SizedStorage α)} {n : ℕ} {b b' : OwnedImpl α} {w w' : World α}
    (h : commitLoop slices storages n b w = some (rest, b', w')) :
    CommitRun slices storages n b w rest b' w' := by
  induction slices generalizing storages n b w rest with
  | nil =>
    simp only [commitLoop, Option.some.injEq, Prod.mk.injEq] at h
    obtain ⟨rfl, rfl, rfl⟩ := h
    exact .done (.inl rfl)
  | cons r slices ih =>
    match storages with
    | [] =>
      simp only [commitLoop, Option.some.injEq, Prod.mk.injEq] at h
      obtain ⟨rfl, rfl, rfl⟩ := h
      exact .done (.inr (.inl rfl))
    | storage :: storages =>
      rw [commitLoop] at h
      split_ifs at h with h0
      · simp only [Option.some.injEq, Prod.mk.injEq] at h
        obtain ⟨rfl, rfl, rfl⟩ := h
        exact .done (.inr (.inr h0))
      dsimp only at h
      cases hmem : storage.mem with
      | some mem =>
        simp only [hmem] at h
        split_ifs at h with hfits
        obtain ⟨⟨rest₁, b₁, w₁⟩, hrest, heq⟩ := Option.map_eq_some_iff.1 h
        simp only [Prod.mk.injEq] at heq
        obtain ⟨rfl, rfl, rfl⟩ := heq
        rw [SliceDeque.emplaceBack_snd] at hrest
        refine .adopt h0 hmem (Nat.le_of_not_lt hfits) ?_ ?_ ?_ (ih hrest)
        · rfl
        · rfl
        · exact SliceDeque.toList_emplaceBack _ _
            (Slice.ofStorage mem storage.len (min r.len n) b.account w).2
      | none =>
        simp only [hmem] at h
        split_ifs at h with hbad
        push Not at hbad
        obtain ⟨hne, -, hroom⟩ := hbad
        obtain ⟨⟨rest₁, b₁, w₁⟩, hrest, heq⟩ := Option.map_eq_some_iff.1 h
        simp only [Prod.mk.injEq] at heq
        obtain ⟨rfl, rfl, rfl⟩ := heq
        obtain ⟨l, s, hl⟩ := (List.eq_nil_or_concat' b.slices.toList).resolve_left
          fun hnil ↦ hne (SliceDeque.isEmpty_iff.2 hnil)
        rw [SliceDeque.back_of_concat hl] at hrest hroom
        refine .fill h0 hmem hl hroom ?_ ?_ ?_ (ih hrest)
        · rfl
        · rfl
        · exact SliceDeque.setBack_of_concat hl _

/-- A commit extends the buffer with storages of the owner, and in the room behind its last
slice. -/
theorem CommitRun.extends {slices : List RawSlice} {storages rest : List (SizedStorage α)} {n : ℕ}
    {b b' : OwnedImpl α} {w w' : World α} (h : CommitRun slices storages n b w rest b' w')
    (hb : b.WF) (hst : ∀ st ∈ storages, st.WF) :
    ∃ adopted d, heldBy storages = adopted + heldBy rest ∧ LeftOf storages rest ∧
      b'.account = b.account ∧ b'.length = b.length + .ofNat d.length ∧
      Extends b.account adopted d b.slices.toList w b'.slices.toList w' := by
  induction h with
  | done => exact ⟨0, [], (zero_add _).symm, .refl _, rfl, by simp, .refl _ _⟩
  | @adopt r slices storage mem storages rest n b b₁ b' w w' hn hmem hfits haccount hlength hslices
      hrun ih =>
    have hext : Extends b.account {mem.id} (Memory.read mem.mem 0 (min r.len n)) b.slices.toList w
        b₁.slices.toList (Slice.ofStorage mem storage.len (min r.len n) b.account w).2 := by
      rw [hslices]
      exact .adopt mem _ w (hst storage List.mem_cons_self mem hmem) hfits
    obtain ⟨adopted, d, hheld, hleft, hacc, hlen, hext'⟩ :=
      ih (hext.wf hb) fun st h ↦ hst st (List.mem_cons_of_mem storage h)
    rw [haccount] at hacc hext'
    refine ⟨{mem.id} + adopted, _, ?_, .cons (.inr rfl) hleft, hacc, ?_, hext.trans hext'⟩
    · rw [heldBy_cons, heldBy_cons { storage with mem := none } rest, hheld,
        heldBy_singleton_of_some hmem, heldBy_singleton_of_none rfl, zero_add, add_assoc]
    · rw [hlen, hlength, List.length_append, Memory.length_read, UInt64.ofNat_add, UInt64.add_assoc]
  | @fill r slices storage storages rest n b b₁ b' w w' l s hn hmem hback hroom haccount hlength
      hslices hrun ih =>
    have hs : s.WF := hb s (by rw [hback]; exact List.mem_concat_self)
    have happ := hs.commit_spec w ⟨r.mem, min r.len n⟩ (by
      rw [Slice.reservableSize]
      dsimp only
      omega)
    have hext : Extends b.account 0 (s.load w s.reservable (min r.len n)) b.slices.toList w
        b₁.slices.toList w := by
      rw [hback, hslices]
      exact .fill l w happ
    obtain ⟨adopted, d, hheld, hleft, hacc, hlen, hext'⟩ :=
      ih (hext.wf hb) fun st h ↦ hst st (List.mem_cons_of_mem storage h)
    rw [haccount] at hacc hext'
    refine ⟨adopted, s.load w s.reservable (min r.len n) ++ d, ?_, .cons (.inl rfl) hleft, hacc, ?_,
      ?_⟩
    · rw [heldBy_cons, heldBy_cons storage rest, hheld, heldBy_singleton_of_none hmem, zero_add,
        zero_add]
    · rw [hlen, hlength, List.length_append, hs.length_load w hroom, UInt64.ofNat_add,
        UInt64.add_assoc]
    · rw [← zero_add adopted]
      exact hext.trans hext'

/-- A commit extends the buffer with storages that the owner has given up. -/
theorem OwnedImpl.commitLoop_extends {slices : List RawSlice}
    {storages rest : List (SizedStorage α)}
    {n : ℕ} {b b' : OwnedImpl α} {w w' : World α} (hb : b.WF) (hst : ∀ st ∈ storages, st.WF)
    (h : commitLoop slices storages n b w = some (rest, b', w')) :
    ∃ adopted d, heldBy storages = adopted + heldBy rest ∧ LeftOf storages rest ∧
      b'.account = b.account ∧ b'.length = b.length + .ofNat d.length ∧
      Extends b.account adopted d b.slices.toList w b'.slices.toList w' :=
  (commitRun_of_commitLoop h).extends hb hst

theorem SlicesOwner.WF.storages {owner : SlicesOwner α} (h : owner.WF) :
    ∀ st ∈ owner.ownedStorages, st.WF := by
  intro st hst
  cases owner with
  | multiple storages => exact (h st hst).1
  | single storage =>
    obtain rfl := List.mem_singleton.1 hst
    exact h

/-- The slices and storages evolve under a commit. -/
theorem OwnedImpl.commit_evolves {n : ℕ} {slices : List RawSlice} {owner : SlicesOwner α}
    {b b' : OwnedImpl α} {w w' : World α} (hb : b.WF) (howner : owner.WF)
    (h : b.commit n slices owner w = some (b', w')) :
    b'.account = b.account ∧
      Evolves (slicesOf b.slices.toList + (0, heldBy owner.ownedStorages)) w
        (slicesOf b'.slices.toList) w' := by
  rw [commit] at h
  split_ifs at h with h0
  · obtain ⟨rfl, rfl⟩ := Prod.mk.inj (Option.some.inj h)
    refine ⟨rfl, ?_⟩
    simpa using (SlicesOwner.destroy_evolves howner w).frame (slicesOf b.slices.toList)
  · obtain ⟨⟨rest, b₁, w₁⟩, hloop, heq⟩ := Option.map_eq_some_iff.1 h
    obtain ⟨rfl, rfl⟩ := Prod.mk.inj heq
    obtain ⟨adopted, d, hheld, hleft, hacc, -, hext⟩ := commitLoop_extends hb howner.storages hloop
    have hdestroy := SlicesOwner.destroy_evolves (hleft.ownerWF howner) w₁
    rw [SlicesOwner.ownedStorages_withStorages hleft.length] at hdestroy
    refine ⟨hacc, ?_⟩
    have hsplit : slicesOf b.slices.toList + (0, heldBy owner.ownedStorages) =
        slicesOf b.slices.toList + (0, adopted) + (0, heldBy rest) := by
      rw [add_assoc, hheld]
      simp
    rw [hsplit]
    have := (hext.evolves.frame_right (0, heldBy rest)).trans (hdestroy.frame _)
    rwa [add_zero] at this

/-- The bytes behind a slice of a reservation. -/
def lentBytes (b : OwnedImpl α) (w : World α) (slice : RawSlice) (storage : SizedStorage α) :
    List α :=
  match slice.mem with
  | none => []
  | some (_, offset) =>
    match storage.mem with
    | some mem => Memory.read mem.mem offset slice.len
    | none => b.slices.back.load w offset slice.len

/-- What was written to a reservation. -/
def reservedBytes (b : OwnedImpl α) (w : World α) (slices : List RawSlice)
    (storages : List (SizedStorage α)) : List α :=
  (List.zipWith (lentBytes b w) slices storages).flatten

@[simp] theorem reservedBytes_cons (b : OwnedImpl α) (w : World α) (r : RawSlice)
    (storage : SizedStorage α) (slices : List RawSlice) (storages : List (SizedStorage α)) :
    reservedBytes b w (r :: slices) (storage :: storages) =
      lentBytes b w r storage ++ reservedBytes b w slices storages := by
  simp [reservedBytes]

/-- The slices that the owner lends are adopted, one after another. -/
theorem OwnedImpl.commitLoop_lends {slices : List RawSlice} {storages : List (SizedStorage α)}
    (h : List.Forall₂ Lends slices storages) {n : ℕ} (hn : n ≤ totalLen slices) (b : OwnedImpl α)
    (w : World α) :
    ∃ rest b' w', commitLoop slices storages n b w = some (rest, b', w') ∧
      b'.length = b.length + .ofNat n ∧
      ∀ c v, contentOf v b'.slices.toList =
        contentOf v b.slices.toList ++ (reservedBytes c v slices storages).take n := by
  induction h generalizing n b w with
  | nil =>
    obtain rfl : n = 0 := Nat.le_zero.1 hn
    exact ⟨[], b, w, rfl, by simp, fun c v ↦ by simp⟩
  | @cons r storage slices storages hlends hrest ih =>
    rw [commitLoop]
    split_ifs with h0
    · exact ⟨_, b, w, rfl, by simp [h0], fun c v ↦ by simp [h0]⟩
    obtain ⟨mem, hmem, haddress, -, hle⟩ := hlends
    rw [totalLen_cons] at hn
    simp only [hmem, if_neg (by omega : ¬min r.len n > storage.len)]
    obtain ⟨rest, b', w', hloop, hlen, hcontent⟩ := ih (n := n - min r.len n) (by omega) _ _
    rw [hloop]
    refine ⟨_, b', w', rfl, ?_, fun c v ↦ ?_⟩
    · rw [hlen]
      dsimp only
      rw [UInt64.add_assoc, ← UInt64.ofNat_add]
      congr 2
      omega
    · have hbytes : lentBytes c v r storage = Memory.read mem.mem 0 r.len := by
        rw [lentBytes, haddress, hmem]
      have hnew : (Slice.ofStorage mem storage.len (min r.len n) b.account w).1.bytes v =
          Memory.read mem.mem 0 (min n r.len) := by
        rw [Nat.min_comm]
        rfl
      rw [hcontent c v, reservedBytes_cons, hbytes, List.take_append, Memory.take_read,
        Memory.length_read, SliceDeque.toList_emplaceBack, contentOf_append, contentOf_cons, hnew,
        contentOf_nil, List.append_nil, List.append_assoc]
      congr 3
      omega

/-- A commit to the buffer that backs the reservation appends what was written. -/
theorem OwnedImpl.commitLoop_backed {b : OwnedImpl α} {slices : List RawSlice}
    {storages : List (SizedStorage α)} (hb : b.WF) (h : Backed b slices storages) {n : ℕ}
    (hn : n ≤ totalLen slices) (w : World α) :
    ∃ rest b' w', commitLoop slices storages n b w = some (rest, b', w') ∧
      b'.length = b.length + .ofNat n ∧
      contentOf w b'.slices.toList =
        contentOf w b.slices.toList ++ (reservedBytes b w slices storages).take n := by
  cases h with
  | owned hlends =>
    obtain ⟨rest, b', w', hloop, hlen, hcontent⟩ := commitLoop_lends hlends hn b w
    exact ⟨rest, b', w', hloop, hlen, hcontent b w⟩
  | @behind l s k slices storages hl hk hroom hlends =>
    have hs : s.WF := hb s (by simp [hl])
    have hback := SliceDeque.back_of_concat hl
    rw [commitLoop]
    split_ifs with h0
    · exact ⟨_, b, w, rfl, by simp [h0], by simp [h0]⟩
    rw [totalLen_cons] at hn
    dsimp only at hn ⊢
    have hcap := hs.reservable_le
    rw [Slice.reservableSize] at hroom
    rw [if_neg (by simp [SliceDeque.isEmpty_iff, hl, hback]; omega), hback]
    have happ := hs.commit_spec w ⟨s.base.map (·, s.reservable), min k n⟩ (by
      rw [Slice.reservableSize]
      dsimp only
      omega)
    obtain ⟨rest, b', w', hloop, hlen, hcontent⟩ := commitLoop_lends hlends (n := n - min k n)
      (by omega) { b with
        slices := b.slices.setBack (s.commit false ⟨s.base.map (·, s.reservable), min k n⟩).1
        length := b.length + .ofNat (min k n) } w
    rw [hloop]
    refine ⟨_, b', w', rfl, ?_, ?_⟩
    · rw [hlen]
      dsimp only
      rw [UInt64.add_assoc, ← UInt64.ofNat_add]
      congr 2
      omega
    · obtain ⟨block, hbase⟩ : ∃ block, s.base = some block := by
        refine Option.ne_none_iff_exists'.1 fun hnone ↦ ?_
        have := hs.null hnone
        omega
      have hbytes : lentBytes b w ⟨s.base.map (·, s.reservable), k⟩ {} =
          s.load w s.reservable k := by
        rw [lentBytes, hbase, hback]
        rfl
      -- what is committed of the first slice is the start of what was reserved there
      have htake : (s.load w s.reservable k).take n = s.load w s.reservable (min k n) := by
        have hsplit : k = min k n + (k - min k n) := by omega
        have hlen' : (s.load w s.reservable (min k n)).length = min k n :=
          hs.length_load w (by omega)
        rcases Nat.le_total k n with hle | hle
        · rw [Nat.min_eq_left hle, List.take_of_length_le]
          rw [hs.length_load w (by omega)]
          exact hle
        · rw [hsplit, s.load_add, List.take_append_of_le_length (by omega)]
          rw [List.take_of_length_le (by omega), Nat.min_eq_right hle]
          congr 1
          omega
      rw [hcontent b w, reservedBytes_cons, hbytes, List.take_append, htake,
        SliceDeque.setBack_of_concat hl, hl, contentOf_append, contentOf_append, contentOf_cons,
        contentOf_cons, happ.bytes, hs.length_load w (by omega)]
      have hrest : n - min k n = n - k := by omega
      simp [hrest, List.append_assoc]

/-- **Committing appends what was written.** -/
theorem OwnedImpl.commit_backed {b : OwnedImpl α} {slices : List RawSlice} {owner : SlicesOwner α}
    (hb : b.WF) (h : Backed b slices owner.ownedStorages) {n : ℕ} (hn : n ≤ totalLen slices)
    (w : World α) :
    ∃ b' w', b.commit n slices owner w = some (b', w') ∧ b'.length = b.length + .ofNat n ∧
      contentOf w b'.slices.toList =
        contentOf w b.slices.toList ++ (reservedBytes b w slices owner.ownedStorages).take n := by
  rw [commit]
  split_ifs with h0
  · exact ⟨b, owner.destroy w, rfl, by simp [h0], by simp [h0]⟩
  · obtain ⟨rest, b', w', hloop, hlen, hcontent⟩ := commitLoop_backed hb h hn w
    rw [hloop]
    exact ⟨b', _, rfl, hlen, hcontent⟩

end TcpServer.Buffer
