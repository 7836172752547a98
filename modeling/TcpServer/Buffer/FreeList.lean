import TcpServer.Buffer.Reservation
import TcpServer.Lib.Machine
import Mathlib.Algebra.BigOperators.Pi
import Mathlib.Algebra.Order.Ring.Int
import Mathlib.Data.Fintype.Basic

/-!
# The free list of read reservations

The buffers of one thread take the memory of their reservations from one free list. Here they do
nothing else than to make reservations, to commit or drop them, and to be destroyed, in any order
and with any number of reservations outstanding on different buffers. A buffer may be destroyed
before its reservation.

A storage that nobody has is gone: `freed` records where a destructor frees one. What the free list,
the reservations, the slices and that record have together is just what was ever allocated, without
repetition (`Lending.Sound.conserved`). A storage has therefore one owner at most, and none is lost.

The step lemmas are those of `Sound`, one for each call. What a call does to storages is stated as
an equation between multisets, without the order in which they are taken and given back, except for
the commit: which storages go to the buffer is part of what is shown, so the order of the vector is
kept there (`commit_adopts`).
-/

namespace TcpServer.Buffer

variable {α : Type*}

/-- The storages of an owner that are not null, in the order of the vector. -/
def heldMems (storages : List (SizedStorage α)) : List (Storage α) :=
  storages.filterMap SizedStorage.mem

/-- The storages that slices own. -/
def storageIds (l : List (Slice α)) : List ℕ := l.filterMap Slice.storageId

/-- The number of slices of a reservation that a commit of `n` bytes takes. -/
def covering : List RawSlice → ℕ → ℕ
  | [], _ => 0
  | slice :: slices, n => if n = 0 then 0 else covering slices (n - min slice.len n) + 1

/-- The storages that the destructor of an owner finds no room for in the free list. -/
def unreturned (w : World α) (storages : List (SizedStorage α)) : List (Storage α) :=
  (heldMems storages).reverse.drop (freeListMax - w.freeList.length)

namespace Reservation

/-- The storages of a reservation, none without an owner. -/
def storages (r : Reservation α) : List (SizedStorage α) :=
  r.slicesOwner.elim [] SlicesOwner.ownedStorages

/-- `Reservation::commit`. An empty reservation has no owner, which matters only if bytes are
committed. -/
def commit (r : Reservation α) (b : OwnedImpl α) (length : ℕ) (w : World α) :
    Option (OwnedImpl α × World α) :=
  match r.slicesOwner with
  | some owner => b.commit length r.slices owner w
  | none => if length = 0 then some (b, w) else none

/-- `~Reservation`. -/
def destroy (r : Reservation α) (w : World α) : World α :=
  r.slicesOwner.elim w fun owner ↦ owner.destroy w

end Reservation

/-- The buffers and the reservations of one thread, a buffer that was destroyed being none. -/
structure Lending (ι κ α : Type*) where
  /-- The buffers, none for one that was destroyed. -/
  buffers : ι → Option (OwnedImpl α) := fun _ ↦ some {}
  /-- The reservations, each with its buffer. -/
  reservations : κ → Option (ι × Reservation α) := fun _ ↦ none
  /-- The free list and the allocator. -/
  world : World α
  /-- The storages that went back to the allocator. -/
  freed : List ℕ := []

namespace Lending

variable {ι κ : Type*}

/-- The calls of the thread. -/
inductive Op (ι κ : Type*)
  | reserveWithMaxLength (i : ι) (k : κ) (maxLength : ℕ)
  | commit (k : κ) (length : ℕ)
  | dropReservation (k : κ)
  | destroy (i : ι)

/-- No storage has been allocated. -/
def init (fragments fresh : ℕ → ℕ → α) : Lending ι κ α where
  world := { fragments, fresh }

/-- One call. A buffer has one reservation at a time, and bytes are committed only to a buffer that
is there, as many as were reserved at most. -/
def step [DecidableEq ι] [DecidableEq κ] [Fintype κ] :
    Op ι κ → Lending ι κ α → Option (Lending ι κ α)
  | .reserveWithMaxLength i k maxLength, st =>
    if (st.reservations k).isNone ∧ ∀ k', (st.reservations k').map Prod.fst ≠ some i then
      (st.buffers i).map fun b ↦
        let (r, b', w) := b.reserveWithMaxLength maxLength st.world
        { buffers := Function.update st.buffers i (some b')
          reservations := Function.update st.reservations k (some (i, r))
          world := w
          freed := st.freed ++ storageIds (b.slices.toList.drop b'.slices.size) }
    else none
  | .commit k length, st =>
    (st.reservations k).bind fun (i, r) ↦ (st.buffers i).bind fun b ↦
      if length ≤ r.length then
        (r.commit b length st.world).map fun (b', w) ↦
          { buffers := Function.update st.buffers i (some b')
            reservations := Function.update st.reservations k none
            world := w
            freed := st.freed ++
              (unreturned st.world (r.storages.drop (covering r.slices length))).map Storage.id }
      else none
  | .dropReservation k, st =>
    (st.reservations k).map fun (_, r) ↦
      { st with
        reservations := Function.update st.reservations k none
        world := r.destroy st.world
        freed := st.freed ++ (unreturned st.world r.storages).map Storage.id }
  | .destroy i, st =>
    (st.buffers i).map fun b ↦
      { st with
        buffers := Function.update st.buffers i none
        world := b.destroy st.world
        freed := st.freed ++ storageIds b.slices.toList }

end Lending

/-! ### Giving storages back

A destructor walks the vector from the back and gives each storage to the free list while that has
room; what is left is freed.
-/

theorem heldBy_eq (storages : List (SizedStorage α)) :
    heldBy storages = ((heldMems storages).map Storage.id : List ℕ) := rfl

theorem heldMems_cons (storage : SizedStorage α) (storages : List (SizedStorage α)) :
    heldMems (storage :: storages) = storage.mem.toList ++ heldMems storages := by
  rw [heldMems, List.filterMap_cons]
  cases storage.mem <;> rfl

/-- The destructor gives storages back as long as there is room in the free list. -/
theorem foldl_recycle (storages : List (SizedStorage α)) {w : World α}
    (hw : w.freeList.length ≤ freeListMax) :
    storages.foldl SlicesOwner.recycle w = { w with
      freeList := w.freeList ++ (heldMems storages).take (freeListMax - w.freeList.length) } := by
  induction storages generalizing w with
  | nil => rw [heldMems, List.filterMap_nil, List.take_nil, List.append_nil, List.foldl_nil]
  | cons storage storages ih =>
    rw [List.foldl_cons, SlicesOwner.recycle, heldMems_cons]
    cases hmem : storage.mem with
    | none => exact ih hw
    | some mem =>
      dsimp only
      split_ifs with hlt
      · have hroom : freeListMax - w.freeList.length =
            freeListMax - (w.freeList ++ [mem]).length + 1 := by
          rw [List.length_append, List.length_singleton]
          omega
        have hlen : (w.freeList ++ [mem]).length ≤ freeListMax := by
          rw [List.length_append, List.length_singleton]
          omega
        rw [ih (w := { w with freeList := w.freeList ++ [mem] }) hlen, hroom, Option.toList_some,
          List.singleton_append, List.take_succ_cons, List.append_assoc, List.singleton_append]
      · have hroom : freeListMax - w.freeList.length = 0 := by omega
        rw [ih hw, hroom, List.take_zero, List.take_zero]

/-- The destructor of an owner of several storages, in one equation. -/
theorem destroy_multiple (storages : List (SizedStorage α)) {w : World α}
    (hw : w.freeList.length ≤ freeListMax) :
    (SlicesOwner.multiple storages).destroy w = { w with
      freeList := w.freeList ++
        (heldMems storages).reverse.take (freeListMax - w.freeList.length) } := by
  rw [SlicesOwner.destroy, foldl_recycle _ hw, heldMems, heldMems, List.filterMap_reverse]

/-- What is given back and what is freed is what was held. -/
theorem freeBlocks_returned {storages : List (SizedStorage α)} {w w' : World α}
    (h : w'.freeList = w.freeList ++
      (heldMems storages).reverse.take (freeListMax - w.freeList.length)) :
    w'.freeBlocks + ((unreturned w storages).map Storage.id : List ℕ) =
      w.freeBlocks + heldBy storages := by
  have hsplit := List.take_append_drop (freeListMax - w.freeList.length) (heldMems storages).reverse
  have hheld : heldBy storages = (((heldMems storages).reverse).map Storage.id : List ℕ) := by
    rw [heldBy_eq, List.map_reverse, Multiset.coe_eq_coe]
    exact (List.reverse_perm _).symm
  rw [World.freeBlocks, World.freeBlocks, hheld, unreturned, h]
  conv_rhs => rw [← hsplit]
  simp only [List.map_append, ← Multiset.coe_add, add_assoc]

/-! ### Reserving

A reservation takes as many storages as it needs, from the back of the free list as long as there
are any.
-/

/-- The storages of the free list, or a new one. -/
theorem newStorage_conserves (w : World α) :
    ∃ mem w', SlicesOwner.newStorage w = (⟨some mem, Slice.defaultSliceSize⟩, w') ∧
      w'.freeBlocks + {mem.id} + Multiset.range w.next = w.freeBlocks + Multiset.range w'.next := by
  rw [SlicesOwner.newStorage]
  cases hlast : w.freeList.getLast? with
  | none =>
    refine ⟨_, _, rfl, ?_⟩
    show w.freeBlocks + {w.next} + Multiset.range w.next =
      w.freeBlocks + Multiset.range (w.next + 1)
    rw [Multiset.range_succ, add_assoc, Multiset.singleton_add]
  | some storage =>
    have hne : w.freeList ≠ [] := fun hnil ↦ by simp [hnil] at hlast
    have hsplit : w.freeList.dropLast ++ [storage] = w.freeList := by
      have := List.dropLast_append_getLast hne
      rwa [List.getLast_eq_iff_getLast?_eq_some hne |>.2 hlast] at this
    refine ⟨storage, _, rfl, ?_⟩
    have hblocks : w.freeBlocks =
        World.freeBlocks { w with freeList := w.freeList.dropLast } + {storage.id} := by
      rw [World.freeBlocks, World.freeBlocks, ← Multiset.coe_singleton, Multiset.coe_add]
      conv_lhs => rw [← hsplit, List.map_append]
      rfl
    rw [hblocks]

/-- The loop takes storages from the free list and the allocator, and from nowhere else. -/
theorem reserveLoop_conserves (fuel remaining reserved : ℕ) (slices : List RawSlice)
    (storages : List (SizedStorage α)) (w : World α) :
    ∃ slices' storages' reserved' w',
      OwnedImpl.reserveLoop fuel remaining reserved slices storages w =
        (slices', storages', reserved', w') ∧
      w'.freeBlocks + heldBy storages' + Multiset.range w.next =
        w.freeBlocks + heldBy storages + Multiset.range w'.next := by
  induction fuel generalizing remaining reserved slices storages w with
  | zero => exact ⟨slices, storages, reserved, w, rfl, rfl⟩
  | succ fuel ih =>
    rw [OwnedImpl.reserveLoop]
    dsimp only
    split_ifs
    · exact ⟨slices, storages, reserved, w, rfl, rfl⟩
    · obtain ⟨mem, w₁, hnew, hfirst⟩ := newStorage_conserves w
      rw [hnew]
      dsimp only
      obtain ⟨slices', storages', reserved', w', hloop, hrest⟩ :=
        ih (remaining - min Slice.defaultSliceSize remaining) (reserved + Slice.defaultSliceSize)
          (slices ++ [⟨(some mem).map fun mem ↦ (.storage mem.id, 0), Slice.defaultSliceSize⟩])
          (storages ++ [⟨some mem, Slice.defaultSliceSize⟩]) w₁
      refine ⟨slices', storages', reserved', w', hloop, Multiset.ext' fun id ↦ ?_⟩
      have hfirst := congrArg (Multiset.count id) hfirst
      have hrest := congrArg (Multiset.count id) hrest
      rw [heldBy_append, heldBy_singleton_of_some rfl] at hrest
      simp only [Multiset.count_add] at hfirst hrest ⊢
      omega
    · exact ⟨slices, storages, reserved, w, rfl, rfl⟩

/-- `reserveWithMaxLength` removes slices at the end, and takes storages for the reservation. -/
theorem reserveWithMaxLength_conserves (b : OwnedImpl α) (maxLength : ℕ) (w : World α) :
    ∃ r b' w', b.reserveWithMaxLength maxLength w = (r, b', w') ∧
      w'.freeBlocks + heldBy r.storages + Multiset.range w.next =
        w.freeBlocks + Multiset.range w'.next ∧
      b'.slices.toList <+: b.slices.toList ∧
      (0 < maxLength → ∃ storages, r.slicesOwner = some (.multiple storages)) := by
  rw [OwnedImpl.reserveWithMaxLength]
  split_ifs with h0
  · refine ⟨{}, b, w, rfl, ?_, List.prefix_rfl, fun hpos ↦ absurd h0 (Nat.ne_of_gt hpos)⟩
    show w.freeBlocks + 0 + _ = _
    rw [add_zero]
  obtain ⟨hkept, hw₁, -⟩ := OwnedImpl.popEmptyBack_spec (Nat.le_of_eq b.slices.length_toList) w
  generalize OwnedImpl.popEmptyBack b.slices.size b.slices w = popped at hkept hw₁
  obtain ⟨q, w₁⟩ := popped
  dsimp only at hkept hw₁ ⊢
  -- The first slice of the reservation may be behind the buffer, with a null entry in the vector.
  obtain ⟨slices, storages, reserved, hbehind, hnull⟩ : ∃ slices storages reserved,
      OwnedImpl.reserveBehind q maxLength = (slices, storages, reserved) ∧ heldBy storages = 0 := by
    rcases OwnedImpl.reserveBehind_spec q (Nat.pos_of_ne_zero h0) with
      hnone | ⟨l, s, k, -, -, -, -, hsome⟩
    · exact ⟨_, _, _, hnone, rfl⟩
    · exact ⟨_, _, _, hsome, rfl⟩
  rw [hbehind]
  dsimp only
  obtain ⟨slices', storages', reserved', w', hloop, hconserves⟩ :=
    reserveLoop_conserves maxSlices (maxLength - reserved) reserved slices storages w₁
  rw [hloop]
  refine ⟨_, _, _, rfl, ?_, ?_, fun _ ↦ ⟨storages', rfl⟩⟩
  · rw [hw₁, hnull, add_zero] at hconserves
    exact hconserves
  · dsimp only
    rw [hkept]
    exact ⟨trimmed b.slices.toList, kept_append_trimmed _⟩

/-! ### Committing

A commit goes through the slices of the reservation with their storages side by side, and stops
where the bytes end.
-/

@[simp] theorem storageIds_append (l l' : List (Slice α)) :
    storageIds (l ++ l') = storageIds l ++ storageIds l' := List.filterMap_append

theorem covering_zero (slices : List RawSlice) : covering slices 0 = 0 := by
  cases slices <;> rfl

/-- A commit moves the storages of the slices that it covers to the buffer, in order. -/
theorem CommitRun.adopts {slices : List RawSlice} {storages rest : List (SizedStorage α)} {n : ℕ}
    {b b' : OwnedImpl α} {w w' : World α} (h : CommitRun slices storages n b w rest b' w') :
    storageIds b'.slices.toList = storageIds b.slices.toList ++
        (heldMems (storages.take (covering slices n))).map Storage.id ∧
      heldMems rest = heldMems (storages.drop (covering slices n)) ∧
      w'.freeList = w.freeList ∧ w'.next = w.next := by
  induction h with
  | @done slices storages n b w h =>
    rcases h with rfl | rfl | rfl
    · exact ⟨(List.append_nil _).symm, rfl, rfl, rfl⟩
    · rw [List.take_nil, List.drop_nil]
      exact ⟨(List.append_nil _).symm, rfl, rfl, rfl⟩
    · rw [covering_zero]
      exact ⟨(List.append_nil _).symm, rfl, rfl, rfl⟩
  | @adopt r slices storage mem storages rest n b b₁ b' w w' hn hmem hfits haccount hlength hslices
      hrun ih =>
    obtain ⟨hids, hleft, hfree, hnext⟩ := ih
    have hnew : storageIds [(Slice.ofStorage mem storage.len (min r.len n) b.account w).1] =
        [mem.id] := rfl
    rw [hslices, storageIds_append, hnew] at hids
    rw [covering, if_neg hn, List.take_succ_cons, List.drop_succ_cons, heldMems_cons, hmem]
    refine ⟨?_, hleft, hfree, hnext⟩
    rw [hids, List.map_append, List.append_assoc]
    rfl
  | @fill r slices storage storages rest n b b₁ b' w w' l s hn hmem hback hroom haccount hlength
      hslices hrun ih =>
    obtain ⟨hids, hleft, hfree, hnext⟩ := ih
    have hsame : storageIds [(s.commit false ⟨r.mem, min r.len n⟩).1] = storageIds [s] := rfl
    rw [hslices, storageIds_append, hsame, ← storageIds_append, ← hback] at hids
    rw [covering, if_neg hn, List.take_succ_cons, List.drop_succ_cons, heldMems_cons,
      heldMems_cons storage rest, hmem]
    exact ⟨hids, hleft, hfree, hnext⟩

/-- The covering slices are as few as hold the bytes. -/
theorem covering_spec {slices : List RawSlice} {n : ℕ} (hn : n ≤ totalLen slices) :
    covering slices n ≤ slices.length ∧ n ≤ totalLen (slices.take (covering slices n)) ∧
      ∀ m < covering slices n, totalLen (slices.take m) < n := by
  induction slices generalizing n with
  | nil => exact ⟨Nat.le_refl 0, hn, fun m hm ↦ absurd hm (Nat.not_lt_zero m)⟩
  | cons r slices ih =>
    rw [covering]
    split_ifs with h0
    · exact ⟨Nat.zero_le _, Nat.le_of_eq h0, fun m hm ↦ absurd hm (Nat.not_lt_zero m)⟩
    rw [totalLen_cons] at hn
    obtain ⟨hlen, hcovers, hleast⟩ := ih (n := n - min r.len n) (by omega)
    refine ⟨Nat.succ_le_succ hlen, ?_, fun m hm ↦ ?_⟩
    · rw [List.take_succ_cons, totalLen_cons]
      omega
    · cases m with
      | zero => exact Nat.pos_of_ne_zero h0
      | succ m =>
        have := hleast m (Nat.lt_of_succ_lt_succ hm)
        rw [List.take_succ_cons, totalLen_cons]
        omega

/-- **What a commit does with storages**: those of the slices that it covers go to the buffer, and
the others back to the free list, as long as there is room. -/
theorem commit_adopts {slices : List RawSlice} {storages : List (SizedStorage α)} {n : ℕ}
    {b b' : OwnedImpl α} {w w' : World α} (hw : w.freeList.length ≤ freeListMax)
    (h : b.commit n slices (.multiple storages) w = some (b', w')) :
    storageIds b'.slices.toList = storageIds b.slices.toList ++
        (heldMems (storages.take (covering slices n))).map Storage.id ∧
      w'.freeList = w.freeList ++ (heldMems (storages.drop (covering slices n))).reverse.take
        (freeListMax - w.freeList.length) ∧
      w'.next = w.next := by
  rw [OwnedImpl.commit] at h
  split_ifs at h with h0
  · obtain ⟨rfl, rfl⟩ := Prod.mk.inj (Option.some.inj h)
    rw [h0, covering_zero, destroy_multiple storages hw]
    exact ⟨(List.append_nil _).symm, rfl, rfl⟩
  · obtain ⟨⟨rest, b₁, w₁⟩, hloop, heq⟩ := Option.map_eq_some_iff.1 h
    obtain ⟨rfl, rfl⟩ := Prod.mk.inj heq
    obtain ⟨hids, hleft, hfree, hnext⟩ := (OwnedImpl.commitRun_of_commitLoop hloop).adopts
    have hdestroy := destroy_multiple rest (w := w₁) (by rwa [hfree])
    rw [hleft, hfree] at hdestroy
    refine ⟨hids, ?_, ?_⟩
    · rw [SlicesOwner.withStorages, hdestroy]
      rfl
    · rw [SlicesOwner.withStorages, hdestroy]
      exact hnext

/-! ### Reservations that can be committed

The calls are made on reservations that were made by `reserveWithMaxLength` and not yet committed.
Such a reservation stays usable while its buffer is left alone, and becomes one without a buffer if
that is destroyed.
-/

/-- A reservation that is empty, or that has a vector of storages beside its slices. Its buffer, if
it is still there, backs it. -/
inductive Committable (b : Option (OwnedImpl α)) (r : Reservation α) : Prop
  | empty : r.slicesOwner = none → r.slices = [] → r.length = 0 → Committable b r
  | owned {storages : List (SizedStorage α)} : r.slicesOwner = some (.multiple storages) →
    (SlicesOwner.multiple storages).WF → r.length = totalLen r.slices →
      (∀ b', b = some b' → Backed b' r.slices storages) → Committable b r

/-- What the destruction of a buffer, and what a call of another one, leaves of it. -/
theorem Committable.mono {b b' : Option (OwnedImpl α)} {r : Reservation α} (h : Committable b r)
    (hb : ∀ b₁, b' = some b₁ → b = some b₁) : Committable b' r := by
  cases h with
  | empty howner hslices hlength => exact .empty howner hslices hlength
  | owned howner hwf hlength hbacked =>
    exact .owned howner hwf hlength fun b₁ hb₁ ↦ hbacked b₁ (hb b₁ hb₁)

theorem Reservation.storages_of_owner {r : Reservation α} {owner : SlicesOwner α}
    (h : r.slicesOwner = some owner) : r.storages = owner.ownedStorages := by
  rw [storages, h]
  rfl

theorem Reservation.storages_of_none {r : Reservation α} (h : r.slicesOwner = none) :
    r.storages = [] := by
  rw [storages, h]
  rfl

/-- A reservation can always be made. -/
theorem exists_reserve {b : OwnedImpl α} {w : World α} (hb : b.WF) (hw : w.WF) (maxLength : ℕ) :
    ∃ r b' w', b.reserveWithMaxLength maxLength w = (r, b', w') ∧ b'.WF ∧ w'.WF ∧
      Committable (some b') r ∧ b'.slices.toList <+: b.slices.toList ∧
      w'.freeBlocks + heldBy r.storages + Multiset.range w.next =
        w.freeBlocks + Multiset.range w'.next := by
  obtain ⟨r, b', w', hreserve, hconserves, hprefix, hmultiple⟩ :=
    reserveWithMaxLength_conserves b maxLength w
  refine ⟨r, b', w', hreserve, ?_⟩
  rcases Nat.eq_zero_or_pos maxLength with rfl | hpos
  · obtain ⟨rfl, rfl, rfl⟩ : {} = r ∧ b = b' ∧ w = w' := by
      simpa [OwnedImpl.reserveWithMaxLength] using hreserve
    exact ⟨hb, hw, .empty rfl rfl rfl, hprefix, hconserves⟩
  · obtain ⟨storages, howner⟩ := hmultiple hpos
    obtain ⟨r₁, owner, b₁, w₁, hreserve₁, howner₁, hreserves, hlength, -⟩ :=
      OwnedImpl.reserveWithMaxLength_spec (b := b) hpos w
    obtain ⟨rfl, rfl, rfl⟩ : r = r₁ ∧ b' = b₁ ∧ w' = w₁ := by
      simpa using hreserve.symm.trans hreserve₁
    obtain rfl := Option.some.inj (howner.symm.trans howner₁)
    refine ⟨?_, hreserves.evolves.world hw, .owned howner (hreserves.ownerWF hw) hlength ?_,
      hprefix, hconserves⟩
    · intro s hs
      exact hreserves.evolves.wf hb s (Multiset.mem_add.2 (.inl hs))
    · rintro b₂ ⟨⟩
      exact hreserves.backed

/-- It can be committed, for as many bytes as it has. -/
theorem exists_commit {b : OwnedImpl α} {r : Reservation α} {w : World α} (hb : b.WF) (hw : w.WF)
    (h : Committable (some b) r) {n : ℕ} (hn : n ≤ r.length) :
    ∃ b' w', r.commit b n w = some (b', w') ∧ b'.WF ∧ w'.WF ∧ w'.next = w.next ∧
      storageIds b'.slices.toList = storageIds b.slices.toList ++
        (heldMems (r.storages.take (covering r.slices n))).map Storage.id ∧
      w'.freeList = w.freeList ++ (heldMems (r.storages.drop (covering r.slices n))).reverse.take
        (freeListMax - w.freeList.length) := by
  cases h with
  | empty howner hslices hlength =>
    obtain rfl : n = 0 := by omega
    refine ⟨b, w, ?_, hb, hw, rfl, ?_⟩
    · rw [Reservation.commit, howner]
      rfl
    · rw [Reservation.storages_of_none howner, List.take_nil, List.drop_nil]
      exact ⟨(List.append_nil _).symm, by simp [heldMems]⟩
  | @owned storages howner hwf hlength hbacked =>
    have hback : Backed b r.slices (SlicesOwner.multiple storages).ownedStorages := hbacked b rfl
    obtain ⟨b', w', hcommit, -⟩ := OwnedImpl.commit_backed hb hback (hlength ▸ hn) w
    obtain ⟨-, hevolves⟩ := OwnedImpl.commit_evolves hb hwf hcommit
    obtain ⟨hids, hfree, hnext⟩ := commit_adopts hw.length_le hcommit
    refine ⟨b', w', ?_, ?_, hevolves.world hw, hnext, ?_⟩
    · rw [Reservation.commit, howner]
      exact hcommit
    · intro s hs
      refine hevolves.wf (fun t ht ↦ hb t ?_) s hs
      rw [Prod.fst_add] at ht
      simpa [slicesOf] using ht
    · rw [Reservation.storages_of_owner howner]
      exact ⟨hids, hfree⟩

/-- It can be destroyed, with or without its buffer. -/
theorem Committable.destroy_spec {b : Option (OwnedImpl α)} {r : Reservation α}
    (h : Committable b r) {w : World α} (hw : w.WF) :
    (r.destroy w).WF ∧ (r.destroy w).next = w.next ∧
      (r.destroy w).freeBlocks + ((unreturned w r.storages).map Storage.id : List ℕ) =
        w.freeBlocks + heldBy r.storages := by
  cases h with
  | empty howner hslices hlength =>
    have hdestroy : r.destroy w = w := by rw [Reservation.destroy, howner, Option.elim_none]
    rw [hdestroy, Reservation.storages_of_none howner]
    exact ⟨hw, rfl, by simp [unreturned, heldMems]⟩
  | @owned storages howner hwf hlength hbacked =>
    have hdestroy : r.destroy w = (SlicesOwner.multiple storages).destroy w := by
      rw [Reservation.destroy, howner, Option.elim_some]
    rw [hdestroy, Reservation.storages_of_owner howner]
    have hfree := destroy_multiple storages hw.length_le
    refine ⟨(SlicesOwner.destroy_evolves hwf w).world hw, ?_, freeBlocks_returned ?_⟩
    · rw [hfree]
    · rw [hfree]
      rfl

/-! ### All storages

The invariant counts: the storages in the free list, those of all reservations, those of all slices
and those that were freed are together the numbers that the allocator has given out, each once.
-/

namespace Lending

variable {ι κ : Type*}

/-- The storages of a reservation. -/
def heldIn (r : Option (ι × Reservation α)) : Multiset ℕ := r.elim 0 fun p ↦ heldBy p.2.storages

/-- The storages of the slices of a buffer. -/
def ownedIn (b : Option (OwnedImpl α)) : Multiset ℕ :=
  b.elim 0 fun b ↦ (storageIds b.slices.toList : Multiset ℕ)

/-- The storages that are in the free list, in a reservation, or in a slice of a buffer, and those
that were freed. -/
def everywhere [Fintype ι] [Fintype κ] (st : Lending ι κ α) : Multiset ℕ :=
  st.world.freeBlocks + ∑ k, heldIn (st.reservations k) + ∑ i, ownedIn (st.buffers i) + st.freed

/-- What holds in every state. -/
structure Sound [Fintype ι] [Fintype κ] (st : Lending ι κ α) : Prop where
  /-- The world is in order. -/
  world : st.world.WF
  /-- So are the buffers that are there. -/
  buffers : ∀ i b, st.buffers i = some b → b.WF
  /-- A reservation can be committed. -/
  committable : ∀ k i r, st.reservations k = some (i, r) → Committable (st.buffers i) r
  /-- A buffer has one reservation at most. -/
  alone : ∀ k k' i r r', st.reservations k = some (i, r) → st.reservations k' = some (i, r') →
    k = k'
  /-- Every storage is in one place. -/
  conserved : st.everywhere = Multiset.range st.world.next

variable [Fintype ι] [Fintype κ]

theorem sound_init (fragments fresh : ℕ → ℕ → α) :
    (init fragments fresh : Lending ι κ α).Sound where
  world := ⟨fun _ h ↦ absurd h List.not_mem_nil, Nat.zero_le _⟩
  buffers i b h s hs := by
    obtain rfl := Option.some.inj h
    rw [SliceDeque.toList_empty] at hs
    exact absurd hs List.not_mem_nil
  committable k i r h := absurd h.symm (Option.some_ne_none _)
  alone k k' i r r' h := absurd h.symm (Option.some_ne_none _)
  conserved := by
    have hheld : heldIn (none : Option (ι × Reservation α)) = 0 := rfl
    have howned : ownedIn (some ({} : OwnedImpl α)) = 0 := by
      show (storageIds ({} : OwnedImpl α).slices.toList : Multiset ℕ) = 0
      rw [SliceDeque.toList_empty]
      rfl
    simp only [everywhere, init, hheld, howned, Finset.sum_const_zero, add_zero]
    rfl

/-- Everything that is not freed has exactly one owner. -/
theorem Sound.count_eq_one {st : Lending ι κ α} (hst : st.Sound) {id : ℕ} (hid : id < st.world.next)
    (hfreed : id ∉ st.freed) :
    st.world.freeBlocks.count id + ∑ k, (heldIn (st.reservations k)).count id +
      ∑ i, (ownedIn (st.buffers i)).count id = 1 := by
  have hcount := congrArg (Multiset.count id) hst.conserved
  have hone : (Multiset.range st.world.next).count id = 1 :=
    Multiset.count_eq_one_of_mem (Multiset.nodup_range _) (Multiset.mem_range.2 hid)
  have hzero : (st.freed : Multiset ℕ).count id = 0 := Multiset.count_eq_zero.2 hfreed
  rw [everywhere, Multiset.count_add, Multiset.count_add, Multiset.count_add, hzero, hone,
    Multiset.count_sum', Multiset.count_sum', add_zero] at hcount
  exact hcount

variable [DecidableEq ι] [DecidableEq κ] {st st' : Lending ι κ α}

/-- A buffer and its reservation have other storages than before. -/
theorem everywhere_update (st : Lending ι κ α) (i : ι) (k : κ) {b : Option (OwnedImpl α)}
    {r : Option (ι × Reservation α)} {w : World α} {freed : List ℕ}
    (h : w.freeBlocks + heldIn r + ownedIn b + freed + Multiset.range st.world.next =
      st.world.freeBlocks + heldIn (st.reservations k) + ownedIn (st.buffers i) +
        Multiset.range w.next)
    (hst : st.everywhere = Multiset.range st.world.next) :
    everywhere { buffers := Function.update st.buffers i b
                 reservations := Function.update st.reservations k r
                 world := w, freed := st.freed ++ freed } = Multiset.range w.next := by
  obtain ⟨R, hR, hupdate⟩ := Ledger.exists_sum_update heldIn st.reservations k
  obtain ⟨R', hR', hupdate'⟩ := Ledger.exists_sum_update ownedIn st.buffers i
  rw [everywhere] at hst ⊢
  dsimp only
  rw [hR, hR'] at hst
  rw [hupdate, hupdate', ← Multiset.coe_add]
  refine Multiset.ext' fun id ↦ ?_
  have h := congrArg (Multiset.count id) h
  have hst := congrArg (Multiset.count id) hst
  simp only [Multiset.count_add] at h hst ⊢
  omega

/-- A call concerns one buffer and the only reservation that it has. -/
theorem Sound.update (hst : st.Sound) {i : ι} {k : κ} {b : Option (OwnedImpl α)}
    {r : Option (ι × Reservation α)} {w : World α} {freed : List ℕ} (hw : w.WF)
    (hb : ∀ b₁, b = some b₁ → b₁.WF)
    (hr : ∀ i' r', r = some (i', r') → i' = i ∧ Committable b r')
    (hother : ∀ k' r', k' ≠ k → st.reservations k' ≠ some (i, r'))
    (hids : w.freeBlocks + heldIn r + ownedIn b + freed + Multiset.range st.world.next =
      st.world.freeBlocks + heldIn (st.reservations k) + ownedIn (st.buffers i) +
        Multiset.range w.next) :
    Sound { buffers := Function.update st.buffers i b
            reservations := Function.update st.reservations k r
            world := w, freed := st.freed ++ freed } where
  world := hw
  buffers j b₁ hj := by
    dsimp only at hj
    rcases eq_or_ne j i with rfl | hne
    · exact hb b₁ (by rwa [Function.update_self] at hj)
    · rw [Function.update_of_ne hne] at hj
      exact hst.buffers j b₁ hj
  committable k' i' r' hk' := by
    dsimp only at hk' ⊢
    rcases eq_or_ne k' k with rfl | hne
    · rw [Function.update_self] at hk'
      obtain ⟨rfl, hr'⟩ := hr i' r' hk'
      rwa [Function.update_self]
    · rw [Function.update_of_ne hne] at hk'
      have hi : i' ≠ i := by
        rintro rfl
        exact hother k' r' hne hk'
      rw [Function.update_of_ne hi]
      exact hst.committable k' i' r' hk'
  alone k₁ k₂ j r₁ r₂ h₁ h₂ := by
    dsimp only at h₁ h₂
    by_cases he₁ : k₁ = k <;> by_cases he₂ : k₂ = k
    · exact he₁.trans he₂.symm
    · rw [he₁, Function.update_self] at h₁
      rw [Function.update_of_ne he₂] at h₂
      obtain ⟨rfl, -⟩ := hr j r₁ h₁
      exact absurd h₂ (hother k₂ r₂ he₂)
    · rw [Function.update_of_ne he₁] at h₁
      rw [he₂, Function.update_self] at h₂
      obtain ⟨rfl, -⟩ := hr j r₂ h₂
      exact absurd h₁ (hother k₁ r₁ he₁)
    · rw [Function.update_of_ne he₁] at h₁
      rw [Function.update_of_ne he₂] at h₂
      exact hst.alone k₁ k₂ j r₁ r₂ h₁ h₂
  conserved := everywhere_update st i k hids hst.conserved

/-- A reservation takes from the free list what it gets. -/
theorem Sound.reserve {i : ι} {k : κ} {maxLength : ℕ} (hst : st.Sound)
    (h : step (.reserveWithMaxLength i k maxLength) st = some st') : st'.Sound := by
  simp only [step] at h
  split_ifs at h with hfree
  obtain ⟨b, hb, rfl⟩ := Option.map_eq_some_iff.1 h
  obtain ⟨r, b', w', hreserve, hb', hw', hcommittable, ⟨popped, hpopped⟩, hconserves⟩ :=
    exists_reserve (hst.buffers i b hb) hst.world maxLength
  rw [hreserve]
  refine hst.update hw' ?_ ?_ ?_ ?_
  · rintro b₁ ⟨⟩
    exact hb'
  · rintro i' r' ⟨⟩
    exact ⟨rfl, hcommittable⟩
  · intro k' r' _ hk'
    exact hfree.2 k' (by rw [hk', Option.map_some])
  · have hheld : heldIn (st.reservations k) = 0 := by
      rw [Option.isNone_iff_eq_none.1 hfree.1]
      rfl
    have hsize : b'.slices.size = b'.slices.toList.length := b'.slices.length_toList.symm
    have howned : ownedIn (st.buffers i) = (storageIds b'.slices.toList : Multiset ℕ) +
        storageIds (b.slices.toList.drop b'.slices.size) := by
      rw [hb, hsize, ← hpopped, List.drop_left, Multiset.coe_add, ← storageIds_append, hpopped]
      rfl
    have hnew : heldIn (some (i, r)) = heldBy r.storages := rfl
    have hkept : ownedIn (some b') = (storageIds b'.slices.toList : Multiset ℕ) := rfl
    rw [hheld, howned, hnew, hkept]
    refine Multiset.ext' fun id ↦ ?_
    have hconserves := congrArg (Multiset.count id) hconserves
    simp only [Multiset.count_add, Multiset.count_zero] at hconserves ⊢
    omega

/-- A commit can be made, and this is what it does with the storages. -/
theorem Sound.exists_commit (hst : st.Sound) {k : κ} {i : ι} {r : Reservation α} {b : OwnedImpl α}
    (hk : st.reservations k = some (i, r)) (hb : st.buffers i = some b) {n : ℕ}
    (hn : n ≤ r.length) :
    ∃ b' w', step (.commit k n) st = some
        { buffers := Function.update st.buffers i (some b')
          reservations := Function.update st.reservations k none
          world := w'
          freed := st.freed ++
            (unreturned st.world (r.storages.drop (covering r.slices n))).map Storage.id } ∧
      b'.WF ∧ w'.WF ∧ w'.next = st.world.next ∧
      storageIds b'.slices.toList = storageIds b.slices.toList ++
        (heldMems (r.storages.take (covering r.slices n))).map Storage.id ∧
      w'.freeList = st.world.freeList ++
        (heldMems (r.storages.drop (covering r.slices n))).reverse.take
          (freeListMax - st.world.freeList.length) := by
  obtain ⟨b', w', hcommit, hspec⟩ := TcpServer.Buffer.exists_commit (hst.buffers i b hb) hst.world
    (hb ▸ hst.committable k i r hk) hn
  refine ⟨b', w', ?_, hspec⟩
  simp only [step, hk, Option.bind_some, hb, if_pos hn, hcommit, Option.map_some]

/-- A commit gives the storages to the buffer and to the free list. -/
theorem Sound.commit {k : κ} {n : ℕ} (hst : st.Sound) (h : step (.commit k n) st = some st') :
    st'.Sound := by
  have hstep := h
  simp only [step] at h
  obtain ⟨⟨i, r⟩, hk, h⟩ := Option.bind_eq_some_iff.1 h
  obtain ⟨b, hb, h⟩ := Option.bind_eq_some_iff.1 h
  split_ifs at h with hn
  obtain ⟨b', w', hcommit, hb', hw', hnext, hids, hfree⟩ := hst.exists_commit hk hb hn
  obtain rfl := Option.some.inj (hcommit.symm.trans hstep)
  refine hst.update hw' ?_ ?_ ?_ ?_
  · rintro b₁ ⟨⟩
    exact hb'
  · rintro i' r' ⟨⟩
  · intro k' r' hne hk'
    exact hne (hst.alone k' k i r' r hk' hk)
  · have hreturned := freeBlocks_returned hfree
    have hsplit := List.take_append_drop (covering r.slices n) r.storages
    have hheld : heldIn (st.reservations k) = heldBy (r.storages.take (covering r.slices n)) +
        heldBy (r.storages.drop (covering r.slices n)) := by
      rw [hk, ← heldBy_append, hsplit]
      rfl
    have howned : ownedIn (some b') = ownedIn (st.buffers i) +
        heldBy (r.storages.take (covering r.slices n)) := by
      show (storageIds b'.slices.toList : Multiset ℕ) = _
      rw [hids, hb, heldBy_eq, ← Multiset.coe_add]
      rfl
    have hnone : heldIn (none : Option (ι × Reservation α)) = 0 := rfl
    rw [hheld, howned, hnone, hnext]
    refine Multiset.ext' fun id ↦ ?_
    have hreturned := congrArg (Multiset.count id) hreturned
    simp only [Multiset.count_add, Multiset.count_zero] at hreturned ⊢
    omega

/-- A dropped reservation gives its storages to the free list. -/
theorem Sound.dropReservation {k : κ} (hst : st.Sound)
    (h : step (.dropReservation k) st = some st') : st'.Sound := by
  obtain ⟨⟨i, r⟩, hk, rfl⟩ := Option.map_eq_some_iff.1 h
  have hcommittable := hst.committable k i r hk
  obtain ⟨hw', hnext, hreturned⟩ := hcommittable.destroy_spec hst.world
  have hsame : st.buffers = Function.update st.buffers i (st.buffers i) :=
    (Function.update_eq_self i st.buffers).symm
  dsimp only
  rw [hsame]
  refine hst.update hw' (hst.buffers i) ?_ ?_ ?_
  · rintro i' r' ⟨⟩
  · intro k' r' hne hk'
    exact hne (hst.alone k' k i r' r hk' hk)
  · have hheld : heldIn (st.reservations k) = heldBy r.storages := by
      rw [hk]
      rfl
    have hnone : heldIn (none : Option (ι × Reservation α)) = 0 := rfl
    rw [hheld, hnone, hnext]
    refine Multiset.ext' fun id ↦ ?_
    have hreturned := congrArg (Multiset.count id) hreturned
    simp only [Multiset.count_add, Multiset.count_zero] at hreturned ⊢
    omega

omit [Fintype ι] in
theorem eq_some_of_update_none {f : ι → Option (OwnedImpl α)} {i j : ι} {b : OwnedImpl α}
    (h : Function.update f i none j = some b) : f j = some b := by
  rcases eq_or_ne j i with rfl | hne
  · rw [Function.update_self] at h
    exact absurd h.symm (Option.some_ne_none b)
  · rwa [Function.update_of_ne hne] at h

/-- A destroyed buffer frees its storages. -/
theorem Sound.destroy {i : ι} (hst : st.Sound) (h : step (.destroy i : Op ι κ) st = some st') :
    st'.Sound := by
  obtain ⟨b, hb, rfl⟩ := Option.map_eq_some_iff.1 h
  obtain ⟨released, -, hdestroy⟩ := b.slices.destroy_eq st.world
  have hfree : (b.destroy st.world).freeBlocks = st.world.freeBlocks := by
    rw [OwnedImpl.destroy, hdestroy]
    rfl
  have hnext : (b.destroy st.world).next = st.world.next := by
    rw [OwnedImpl.destroy, hdestroy]
    rfl
  refine ⟨(OwnedImpl.destroy_evolves b st.world).world hst.world, ?_, ?_, hst.alone, ?_⟩
  · exact fun j b₁ hj ↦ hst.buffers j b₁ (eq_some_of_update_none hj)
  · -- A reservation of this buffer has none any more.
    exact fun k j r hk ↦ (hst.committable k j r hk).mono fun b₁ ↦ eq_some_of_update_none
  · obtain ⟨R, hR, hupdate⟩ := Ledger.exists_sum_update ownedIn st.buffers i
    have hconserved := hst.conserved
    have howned : ownedIn (st.buffers i) = (storageIds b.slices.toList : Multiset ℕ) := by
      rw [hb]
      rfl
    have hnone : ownedIn (none : Option (OwnedImpl α)) = 0 := rfl
    rw [everywhere, hR, howned] at hconserved
    rw [everywhere]
    dsimp only
    rw [hupdate, hfree, hnext, hnone, ← Multiset.coe_add, ← hconserved]
    refine Multiset.ext' fun id ↦ ?_
    simp only [Multiset.count_add, Multiset.count_zero]
    omega

/-- Every step keeps the invariant. -/
theorem Sound.of_step {op : Op ι κ} (hst : st.Sound) (h : step op st = some st') : st'.Sound := by
  cases op with
  | reserveWithMaxLength i k maxLength => exact hst.reserve h
  | commit k n => exact hst.commit h
  | dropReservation k => exact hst.dropReservation h
  | destroy i => exact hst.destroy h

/-- It holds in every reachable state. -/
theorem sound_of_reachable {fragments fresh : ℕ → ℕ → α}
    (h : Machine.Reachable step (init fragments fresh) st) : st.Sound :=
  Machine.invariant_of_reachable (sound_init fragments fresh) (fun _ _ _ hst h ↦ hst.of_step h) h

/-- A commit of `n` bytes by which the storages behind the first `m` slices go to the buffer. The
others go back to the free list, the last one first, as long as there is room in it. -/
structure CommitsPrefix (st : Lending ι κ α) (k : κ) (i : ι) (r : Reservation α) (b : OwnedImpl α)
    (n m : ℕ) (b' : OwnedImpl α) (st' : Lending ι κ α) : Prop where
  /-- The commit can be made. -/
  step : Lending.step (.commit k n) st = some st'
  /-- The buffer has taken the bytes. -/
  buffers : st'.buffers = Function.update st.buffers i (some b')
  /-- The reservation is gone. -/
  reservations : st'.reservations = Function.update st.reservations k none
  /-- Each slice has a storage beside it. -/
  parallel : r.storages.length = r.slices.length
  /-- The slices taken are slices of the reservation, and hold the bytes. -/
  covers : m ≤ r.slices.length ∧ n ≤ totalLen (r.slices.take m)
  /-- Fewer would not. -/
  least : ∀ m' < m, totalLen (r.slices.take m') < n
  /-- Their storages are those of the new slices, in order. -/
  adopted : storageIds b'.slices.toList =
    storageIds b.slices.toList ++ (heldMems (r.storages.take m)).map Storage.id
  /-- The others go to the free list, as many as it has room for. -/
  returned : st'.world.freeList = st.world.freeList ++
    (heldMems (r.storages.drop m)).reverse.take (freeListMax - st.world.freeList.length)
  /-- What is left is freed. -/
  freed : st'.freed = st.freed ++ ((heldMems (r.storages.drop m)).reverse.drop
    (freeListMax - st.world.freeList.length)).map Storage.id

/-- A commit takes the shortest prefix of the slices that holds the bytes. -/
theorem Sound.commitsPrefix (hst : st.Sound) {k : κ} {i : ι} {r : Reservation α} {b : OwnedImpl α}
    (hk : st.reservations k = some (i, r)) (hb : st.buffers i = some b) {n : ℕ}
    (hn : n ≤ r.length) :
    ∃ m b' st', CommitsPrefix st k i r b n m b' st' := by
  obtain ⟨b', w', hstep, -, -, -, hids, hfree⟩ := hst.exists_commit hk hb hn
  have hparallel : r.length = totalLen r.slices ∧ r.storages.length = r.slices.length := by
    cases hst.committable k i r hk with
    | empty howner hslices hlength =>
      rw [Reservation.storages_of_none howner, hslices, hlength]
      exact ⟨rfl, rfl⟩
    | owned howner _ hlength hbacked =>
      rw [Reservation.storages_of_owner howner]
      exact ⟨hlength, (hbacked b hb).length_eq.symm⟩
  obtain ⟨hle, hcovers, hleast⟩ := covering_spec (hparallel.1 ▸ hn)
  exact ⟨covering r.slices n, b', _, hstep, rfl, rfl, hparallel.2, ⟨hle, hcovers⟩, hleast, hids,
    hfree, rfl⟩

/-- **No storage is lent twice.** In every reachable state the free list, the reservations, the
slices of the buffers and what was freed are together all storages ever allocated, each of them
once. So a storage that was not freed has exactly one owner. The free list has room for eight
storages, and those in it are of the default size. And whatever reservation is committed, for as
many bytes as it has at most, its storages go to the buffer for the fewest slices that hold the
bytes, and back or away for the others. -/
theorem free_list_lends_once {fragments fresh : ℕ → ℕ → α}
    (h : Machine.Reachable step (init fragments fresh) st) :
    st.world.freeBlocks + ∑ k, heldIn (st.reservations k) + ∑ i, ownedIn (st.buffers i) + st.freed =
        Multiset.range st.world.next ∧
      (∀ id < st.world.next, id ∉ st.freed →
        st.world.freeBlocks.count id + ∑ k, (heldIn (st.reservations k)).count id +
          ∑ i, (ownedIn (st.buffers i)).count id = 1) ∧
      st.world.freeList.length ≤ 8 ∧ (∀ storage ∈ st.world.freeList, storage.size = 16384) ∧
      ∀ k i r b n, st.reservations k = some (i, r) → st.buffers i = some b → n ≤ r.length →
        ∃ m b' st', CommitsPrefix st k i r b n m b' st' := by
  have hst := sound_of_reachable h
  refine ⟨hst.conserved, ?_, hst.world.length_le, hst.world.size, ?_⟩
  · intro id hid hfreed
    exact hst.count_eq_one hid hfreed
  · intro k i r b n hk hb hn
    exact hst.commitsPrefix hk hb hn

/-- Two storages are reserved, of which one is committed; the other one is reserved again, for
another buffer. -/
theorem free_list_lends_once_reused :
    ∃ st : Lending (Fin 2) (Fin 1) ℕ, Machine.run step
        [.reserveWithMaxLength 0 0 40000, .commit 0 10, .reserveWithMaxLength 1 0 1]
        (init (fun _ _ ↦ 0) fun _ _ ↦ 0) = some st ∧
      heldIn (st.reservations 0) = {1} ∧ ownedIn (st.buffers 0) = {0} ∧ st.world.freeBlocks = 0 ∧
      st.world.freeBlocks + ∑ k, heldIn (st.reservations k) + ∑ i, ownedIn (st.buffers i) +
        st.freed =
        Multiset.range 2 := by
  have hend : (Machine.run step
      [.reserveWithMaxLength 0 0 40000, .commit 0 10, .reserveWithMaxLength 1 0 1]
      (init (fun _ _ ↦ 0) fun _ _ ↦ 0 : Lending (Fin 2) (Fin 1) ℕ)).map (fun st ↦
        (heldIn (st.reservations 0), ownedIn (st.buffers 0), st.world.freeBlocks, st.world.next)) =
      some ({1}, {0}, 0, 2) := by decide
  obtain ⟨st, hrun, hst⟩ := Option.map_eq_some_iff.1 hend
  simp only [Prod.mk.injEq] at hst
  obtain ⟨hheld, howned, hfree, hnext⟩ := hst
  have hall := (free_list_lends_once ⟨_, hrun⟩).1
  rw [hnext] at hall
  exact ⟨st, hrun, hheld, howned, hfree, hall⟩

end Lending

end TcpServer.Buffer
