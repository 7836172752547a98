import TcpServer.Buffer.Room
import Mathlib.Order.Bounds.Defs

/-!
# The size of a slice

`sliceSize` rounds up to whole pages in 64-bit arithmetic. Up to `maxSliceSize` it is the least
multiple of the page size that is large enough; beyond that the sum wraps and the slice has no
memory at all. What depends on it goes wrong from the same size on: a reservation is longer than its
storage, a new slice takes no byte, and the loops of `add` and `prepend` make one empty slice after
the other for ever.

The two loops are treated together: a loop that copies into the slice which is there and then into
new ones (`FillsSlices`) ends exactly if what does not fit into that slice fits into a new one, and
if so it makes one new slice at most (`FillsSlices.returns_iff`). For a size too great the second
iteration copies nothing and leaves everything as it was before it, so no number of iterations is
enough.
-/

namespace TcpServer.Buffer

variable {α : Type*}

/-- The rounding is exact as long as the sum does not wrap. -/
theorem isLeast_sliceSize_iff {n : ℕ} (hn : n < 2 ^ 64) :
    IsLeast {m | pageSize ∣ m ∧ n ≤ m} (sliceSize n) ↔ n ≤ maxSliceSize := by
  constructor
  · intro h
    by_contra hmax
    have hle : n ≤ sliceSize n := h.1.2
    rw [sliceSize_eq_zero (Nat.not_le.1 hmax) hn] at hle
    rw [maxSliceSize] at hmax
    omega
  · intro h
    refine ⟨⟨Nat.dvd_mul_left _ _, le_sliceSize h⟩, ?_⟩
    rintro m ⟨⟨k, rfl⟩, hk⟩
    rw [maxSliceSize] at h
    unfold sliceSize
    rw [pageSize] at hk ⊢
    dsimp only
    omega

/-- The size is enough as long as it does not wrap. -/
theorem le_sliceSize_iff {n : ℕ} : n ≤ sliceSize n ↔ n ≤ maxSliceSize :=
  ⟨fun h ↦ h.trans (sliceSize_le n), le_sliceSize⟩

/-! ### Reservations

A reservation of one slice gets the room behind the last slice if that is enough, and otherwise a
storage of the size that `sliceSize` computes.
-/

theorem Slice.len_reserve_le (s : Slice α) (n : ℕ) : (s.reserve n).len ≤ s.reservableSize := by
  have hdef : s.capacity - s.reservable = s.reservableSize := rfl
  rw [Slice.reserve, hdef]
  split_ifs
  · exact Nat.zero_le _
  · exact Nat.zero_le _
  · exact Nat.min_le_right _ _

/-- The memory behind a reservation of one slice: a storage of its own, or the room behind the last
slice of the buffer. -/
def ReservationSingleSlice.storageBehind (r : ReservationSingleSlice α) (b : OwnedImpl α) : ℕ :=
  match r.sliceOwner with
  | some (.single ⟨some mem, _⟩) => mem.size
  | some (.single ⟨none, _⟩) => b.room
  | _ => 0

namespace OwnedImpl

variable {b : OwnedImpl α} {w : World α} {d : List α}

/-- The room for a reservation behind the last slice with data. -/
def roomForReservation (b : OwnedImpl α) (separateSlice : Bool) : ℕ :=
  if separateSlice then 0 else ((kept b.slices.toList).getLastD .empty).reservableSize

/-- The room is that behind the last slice with data. -/
theorem roomForReservation_eq {q : SliceDeque α} (hkept : q.toList = kept b.slices.toList)
    (separateSlice : Bool) :
    b.roomForReservation separateSlice =
      if separateSlice = true ∨ q.isEmpty = true then 0 else q.back.reservableSize := by
  rw [roomForReservation, ← hkept, ← SliceDeque.back_eq]
  by_cases hempty : q.isEmpty = true
  · have hback : q.back = .empty := by
      rw [SliceDeque.back_eq, SliceDeque.isEmpty_iff.1 hempty]
      rfl
    rw [if_pos (Or.inr hempty), hback]
    exact ite_self 0
  · simp only [hempty, Bool.false_eq_true, or_false]

/-- A reservation stays within its memory unless it needs a storage of its own whose size wraps. -/
theorem reserveSingleSlice_within_iff (n : ℕ) (separateSlice : Bool) (w : World α) :
    (b.reserveSingleSlice n separateSlice w).1.slice.len ≤
        (b.reserveSingleSlice n separateSlice w).1.storageBehind
          (b.reserveSingleSlice n separateSlice w).2.1 ↔
      n ≤ maxSliceSize ∨ n ≤ b.roomForReservation separateSlice := by
  have hkept := (popEmptyBack_spec (Nat.le_of_eq b.slices.length_toList) w).1
  rw [reserveSingleSlice]
  by_cases hzero : n = 0
  · rw [if_pos hzero, hzero]
    exact ⟨fun _ ↦ Or.inl (Nat.zero_le _), fun _ ↦ Nat.le_refl 0⟩
  rw [if_neg hzero]
  generalize popEmptyBack b.slices.size b.slices w = popped at hkept ⊢
  obtain ⟨q, w₁⟩ := popped
  dsimp only at hkept ⊢
  rw [← roomForReservation_eq hkept]
  by_cases hfits : b.roomForReservation separateSlice ≥ n
  · rw [if_pos hfits]
    exact ⟨fun _ ↦ Or.inr hfits, fun _ ↦ q.back.len_reserve_le n⟩
  · rw [if_neg hfits, or_iff_left hfits]
    exact le_sliceSize_iff

end OwnedImpl

/-! ### New slices

A new slice has room for what its size is computed from, or no room at all.
-/

/-- What `append` copies. -/
theorem Slice.exists_append (s : Slice α) (d : List α) (w : World α) :
    ∃ s' w', s.append d w = (min d.length s.reservableSize, s', w') := by
  rw [Slice.append]
  dsimp only
  split_ifs with h
  · exact ⟨s, w, by rw [h]⟩
  · exact ⟨_, _, rfl⟩

theorem Slice.reservableSize_create (n : ℕ) (account : Option ℕ) (w : World α) :
    (Slice.create n account w).1.reservableSize = sliceSize n := by
  have hfresh := Slice.fresh_create n account w
  rw [Slice.reservableSize, hfresh.capacity, hfresh.reservable, Nat.sub_zero]

/-- A new slice takes at least one byte exactly when it was made for a size that does not wrap. -/
theorem Slice.append_create_pos_iff {n : ℕ} (hn : n < 2 ^ 64) (account : Option ℕ) {d : List α}
    (hd : d ≠ []) (w w' : World α) :
    0 < ((Slice.create n account w).1.append d w').1 ↔ 0 < n ∧ n ≤ maxSliceSize := by
  obtain ⟨s', w'', happend⟩ := (Slice.create n account w).1.exists_append d w'
  have hpos := List.length_pos_of_ne_nil hd
  rw [happend, Slice.reservableSize_create]
  show 0 < min d.length (sliceSize n) ↔ _
  by_cases hmax : n ≤ maxSliceSize
  · have hle := le_sliceSize hmax
    by_cases hzero : n = 0
    · have hsize : sliceSize n = 0 := by rw [hzero]; rfl
      omega
    · omega
  · rw [sliceSize_eq_zero (Nat.not_le.1 hmax) hn]
    omega

/-! ### Loops that make slices

What the loops of `add` and `prepend` have in common, as they are written: the first iteration may
use a slice that is there, every other one makes a new slice for all that is left.
-/

/-- A loop that copies into the slice that is there, which has `room b` bytes left, and then into
new slices, each made for all bytes that are left. -/
structure FillsSlices (loop : ℕ → Bool → List α → OwnedImpl α → World α →
      Option (OwnedImpl α × World α))
    (room : OwnedImpl α → ℕ) : Prop where
  /-- Nothing is copied if there is nothing left. -/
  nil : ∀ fuel new b w, loop fuel new [] b w = some (b, w)
  /-- Without iterations there is no result. -/
  zero : ∀ new d b w, d ≠ [] → loop 0 new d b w = none
  /-- What fits into a new slice is copied into it. -/
  fits : ∀ fuel d b w, d.length ≤ maxSliceSize → (loop (fuel + 1) true d b w).isSome
  /-- What does not is never copied. -/
  stuck : ∀ fuel d b w, maxSliceSize < d.length → d.length < 2 ^ 64 → loop fuel true d b w = none
  /-- A buffer without slices has no room. -/
  room_eq_zero : ∀ b : OwnedImpl α, b.slices.isEmpty = true → room b = 0
  /-- The first iteration copies what there is room for. -/
  first : ∀ d b w, b.slices.isEmpty = false → d ≠ [] → ∃ d' b' w', d'.length = d.length - room b ∧
    ∀ fuel, loop (fuel + 1) false d b w = loop fuel true d' b' w'

/-- A loop that copies nothing in any round never ends. -/
theorem eq_none_of_forall_step
    {loop : ℕ → Bool → List α → OwnedImpl α → World α → Option (OwnedImpl α × World α)} {d : List α}
    (hzero : ∀ b w, loop 0 true d b w = none)
    (hstep : ∀ fuel b w, ∃ b' w', loop (fuel + 1) true d b w = loop fuel true d b' w') (fuel : ℕ)
    (b : OwnedImpl α) (w : World α) : loop fuel true d b w = none := by
  induction fuel generalizing b w with
  | zero => exact hzero b w
  | succ fuel ih =>
    obtain ⟨b', w', hloop⟩ := hstep fuel b w
    rw [hloop, ih]

namespace FillsSlices

variable {loop : ℕ → Bool → List α → OwnedImpl α → World α → Option (OwnedImpl α × World α)}
  {room : OwnedImpl α → ℕ} {b : OwnedImpl α} {w : World α} {d : List α}

/-- Two iterations are enough if what is left fits into a new slice. -/
theorem isSome_of_le (h : FillsSlices loop room) (hd : d.length ≤ room b + maxSliceSize) {fuel : ℕ}
    (hfuel : d ≠ [] → 2 ≤ fuel) : (loop fuel b.slices.isEmpty d b w).isSome := by
  by_cases hnil : d = []
  · rw [hnil, h.nil]
    rfl
  obtain ⟨k, rfl⟩ := Nat.exists_eq_add_of_le' (hfuel hnil)
  by_cases hempty : b.slices.isEmpty = true
  · rw [h.room_eq_zero b hempty, Nat.zero_add] at hd
    rw [hempty]
    exact h.fits _ d b w hd
  · rw [Bool.not_eq_true] at hempty
    obtain ⟨d', b', w', hlen, hloop⟩ := h.first d b w hempty hnil
    rw [hempty, hloop]
    exact h.fits k d' b' w' (by omega)

/-- No number of iterations is enough: from the second one on nothing is copied. -/
theorem eq_none_of_lt (h : FillsSlices loop room) (hd : room b + maxSliceSize < d.length)
    (hlt : d.length < 2 ^ 64) (fuel : ℕ) : loop fuel b.slices.isEmpty d b w = none := by
  have hnil : d ≠ [] := by
    rintro rfl
    exact absurd hd (Nat.not_lt_zero _)
  by_cases hempty : b.slices.isEmpty = true
  · rw [hempty]
    exact h.stuck fuel d b w (by omega) hlt
  · rw [Bool.not_eq_true] at hempty
    rw [hempty]
    match fuel with
    | 0 => exact h.zero false d b w hnil
    | fuel + 1 =>
      obtain ⟨d', b', w', hlen, hloop⟩ := h.first d b w hempty hnil
      rw [hloop]
      exact h.stuck fuel d' b' w' (by omega) (by omega)

/-- The loop returns exactly when what does not fit into the slice that is there fits into a new
one, and then it has at most two iterations. -/
theorem returns_iff (h : FillsSlices loop room) (hlt : d.length < 2 ^ 64) :
    ((∃ fuel, (loop fuel b.slices.isEmpty d b w).isSome) ↔ d.length ≤ room b + maxSliceSize) ∧
      ((loop (d.length + 1) b.slices.isEmpty d b w).isSome ↔ d.length ≤ room b + maxSliceSize) := by
  have hnone : ∀ fuel, (loop fuel b.slices.isEmpty d b w).isSome →
      d.length ≤ room b + maxSliceSize := by
    intro fuel hsome
    by_contra hlt'
    rw [h.eq_none_of_lt (Nat.not_le.1 hlt') hlt] at hsome
    exact Bool.false_ne_true hsome
  refine ⟨⟨fun ⟨fuel, hsome⟩ ↦ hnone fuel hsome,
    fun hd ↦ ⟨2, h.isSome_of_le hd fun _ ↦ Nat.le_refl 2⟩⟩, hnone _,
    fun hd ↦ h.isSome_of_le hd fun hne ↦ ?_⟩
  have hpos := List.length_pos_of_ne_nil hne
  omega

end FillsSlices

namespace OwnedImpl

variable {b : OwnedImpl α} {w : World α} {d : List α}

/-! ### The loop of `add`

`add` copies into the room behind the last slice.
-/

/-- The new slice is empty, so that all bytes are left for the next one. -/
theorem addImplLoop_eq_none (hd : maxSliceSize < d.length) (hlt : d.length < 2 ^ 64) (fuel : ℕ) :
    addImplLoop fuel true d b w = none := by
  obtain ⟨x, xs, rfl⟩ := List.exists_cons_of_length_pos (Nat.zero_lt_of_lt hd)
  refine eq_none_of_forall_step (fun _ _ ↦ rfl) (fun fuel b w ↦ ?_) fuel b w
  have hroom := Slice.reservableSize_create (x :: xs).length b.account w
  rw [sliceSize_eq_zero hd hlt] at hroom
  obtain ⟨s', w', happend⟩ := (Slice.create (x :: xs).length b.account w).1.exists_append (x :: xs)
    (b.emplaceBackSlice (x :: xs).length w).2
  rw [hroom, Nat.min_zero] at happend
  rw [addImplLoop]
  simp only [if_true, SliceDeque.back_of_concat (b.toList_emplaceBackSlice (x :: xs).length w),
    happend, List.drop_zero]
  exact ⟨_, _, rfl⟩

theorem fillsSlices_addImplLoop : FillsSlices (α := α) addImplLoop room where
  nil fuel new b w := by
    match fuel with
    | 0 => rfl
    | _ + 1 => rfl
  zero new d b w hd := by
    obtain ⟨x, xs, rfl⟩ := List.exists_cons_of_ne_nil hd
    rfl
  fits fuel d b w hd := by
    by_cases hnil : d = []
    · rw [hnil]
      rfl
    · obtain ⟨b', w', hadd, -⟩ := exists_addImplLoop fuel hnil hd b w
      rw [hadd]
      rfl
  stuck fuel _ _ _ hd hlt := addImplLoop_eq_none hd hlt fuel
  room_eq_zero b h := room_of_nil (SliceDeque.isEmpty_iff.1 h)
  first d b w _ hd := by
    obtain ⟨x, xs, rfl⟩ := List.exists_cons_of_ne_nil hd
    obtain ⟨s', w', happend⟩ := b.slices.back.exists_append (x :: xs) w
    refine ⟨(x :: xs).drop (min (x :: xs).length b.slices.back.reservableSize), { b with
      slices := b.slices.setBack s'
      length := b.length + .ofNat (min (x :: xs).length b.slices.back.reservableSize) }, w', ?_,
      fun fuel ↦ ?_⟩
    · rw [List.length_drop, room]
      omega
    · rw [addImplLoop]
      simp only [Bool.false_eq_true, if_false, happend]

/-! ### The loop of `prepend`

`prepend` copies into the room in front of the first slice, or into all of that slice if it has no
data.
-/

/-- The room for `prepend` in the first slice. -/
def prependRoom (b : OwnedImpl α) : ℕ :=
  if b.slices.front.dataSize = 0 then b.slices.front.reservableSize else b.slices.front.data

theorem exists_slice_prepend (s : Slice α) (d : List α) (w : World α) :
    ∃ s' w', s.prepend d w =
      (min d.length (if s.dataSize = 0 then s.reservableSize else s.data), s', w') := by
  rw [Slice.prepend]
  split_ifs with hsize hdata
  · exact ⟨_, _, rfl⟩
  · exact ⟨s, w, by rw [hdata, Nat.min_zero]⟩
  · exact ⟨_, _, rfl⟩

theorem prependLoop_eq_none (hd : maxSliceSize < d.length) (hlt : d.length < 2 ^ 64) (fuel : ℕ) :
    prependLoop fuel true d b w = none := by
  obtain ⟨x, xs, rfl⟩ := List.exists_cons_of_length_pos (Nat.zero_lt_of_lt hd)
  refine eq_none_of_forall_step (fun _ _ ↦ rfl) (fun fuel b w ↦ ?_) fuel b w
  obtain ⟨s', hprepend, -⟩ := prepend_create (List.cons_ne_nil x xs) (x :: xs).length b.account w
  rw [sliceSize_eq_zero hd hlt, Nat.min_zero] at hprepend
  rw [prependLoop]
  simp only [if_true, SliceDeque.front_of_cons (b.toList_emplaceFrontSlice (x :: xs).length w),
    emplaceFrontSlice_snd, hprepend, Nat.sub_zero, List.take_length]
  exact ⟨_, _, rfl⟩

theorem fillsSlices_prependLoop : FillsSlices (α := α) prependLoop prependRoom where
  nil fuel new b w := by
    match fuel with
    | 0 => rfl
    | _ + 1 => rfl
  zero new d b w hd := by
    obtain ⟨x, xs, rfl⟩ := List.exists_cons_of_ne_nil hd
    rfl
  fits fuel d b w hd := prependLoop_isSome hd
  stuck fuel _ _ _ hd hlt := prependLoop_eq_none hd hlt fuel
  room_eq_zero b h := by
    rw [prependRoom, SliceDeque.front_eq, SliceDeque.isEmpty_iff.1 h]
    rfl
  first d b w _ hd := by
    obtain ⟨x, xs, rfl⟩ := List.exists_cons_of_ne_nil hd
    obtain ⟨s', w', hprepend⟩ := exists_slice_prepend b.slices.front (x :: xs) w
    refine ⟨(x :: xs).take ((x :: xs).length - min (x :: xs).length b.prependRoom), { b with
      slices := b.slices.setFront s'
      length := b.length + .ofNat (min (x :: xs).length b.prependRoom) }, w', ?_, fun fuel ↦ ?_⟩
    · rw [List.length_take]
      omega
    · rw [prependLoop]
      simp only [Bool.false_eq_true, if_false, hprepend]
      rfl

end OwnedImpl

/-! ### Every size

The theorem collects what depends on the size, each part as an equivalence for every 64-bit number.
-/

/-- For every size up to `maxSliceSize`, and for no other one, the size of a slice is rounded up to
whole pages, a new slice takes a byte, a reservation stays within its memory and the loops of `add`
and `prepend` return. What fits into the room that is there needs no new slice. -/
theorem sliceSize_sufficient_iff (n : UInt64) :
    (IsLeast {m | pageSize ∣ m ∧ n.toNat ≤ m} (sliceSize n.toNat) ↔ n.toNat ≤ maxSliceSize) ∧
    (∀ account (d : List α) w w', d ≠ [] →
      (0 < ((Slice.create n.toNat account w).1.append d w').1 ↔ 0 < n.toNat ∧
        n.toNat ≤ maxSliceSize)) ∧
    (∀ (b : OwnedImpl α) separateSlice w,
      (b.reserveSingleSlice n.toNat separateSlice w).1.slice.len ≤
          (b.reserveSingleSlice n.toNat separateSlice w).1.storageBehind
            (b.reserveSingleSlice n.toNat separateSlice w).2.1 ↔
        n.toNat ≤ maxSliceSize ∨ n.toNat ≤ b.roomForReservation separateSlice) ∧
    ∀ (b : OwnedImpl α) (d : List α) w, d.length = n.toNat →
      ((∃ fuel, (OwnedImpl.addImplLoop fuel b.slices.isEmpty d b w).isSome) ↔
        n.toNat ≤ b.room + maxSliceSize) ∧
      ((b.addImpl d w).isSome ↔ n.toNat ≤ b.room + maxSliceSize) ∧
      ((∃ fuel, (OwnedImpl.prependLoop fuel b.slices.isEmpty d b w).isSome) ↔
        n.toNat ≤ b.prependRoom + maxSliceSize) ∧
      ((b.prepend d w).isSome ↔ n.toNat ≤ b.prependRoom + maxSliceSize) := by
  have hn : n.toNat < 2 ^ 64 := n.toNat_lt
  refine ⟨isLeast_sliceSize_iff hn, fun account d w w' hd ↦
    Slice.append_create_pos_iff hn account hd w w',
    fun b separateSlice w ↦ b.reserveSingleSlice_within_iff n.toNat separateSlice w,
    fun b d w hd ↦ ?_⟩
  rw [← hd] at hn ⊢
  obtain ⟨hadd, hadd'⟩ := OwnedImpl.fillsSlices_addImplLoop.returns_iff (b := b) (w := w) hn
  obtain ⟨hprepend, hprepend'⟩ := OwnedImpl.fillsSlices_prependLoop.returns_iff (b := b) (w := w) hn
  exact ⟨hadd, hadd', hprepend, hprepend'⟩

/-- A reservation of the greatest 64-bit size has a storage of no bytes. -/
theorem reserveSingleSlice_wraps :
    let w : World Unit := { fragments _ _ := (), fresh _ _ := () }
    let r := ((({} : OwnedImpl Unit).reserveSingleSlice (2 ^ 64 - 1) true w).1,
      sliceSize (2 ^ 64 - 1))
    r.1.slice.len = 2 ^ 64 - 1 ∧ r.1.storageBehind {} = 0 ∧ r.2 = 0 :=
  ⟨rfl, rfl, rfl⟩

end TcpServer.Buffer
