import TcpServer.Buffer.Pool

/-!
# Room for new bytes

Bytes that do not fit next to the data of a slice go to a new slice, and a new slice has memory for
them unless their number is so great that `sliceSize` wraps, past `maxSliceSize`. `add` and
`prepend` then make one empty slice after the other and do not return.

`Op.Fits` is the exact condition under which that does not happen. It needs the room that earlier
parts of the same call leave behind the last slice (`roomAfter`), which is a number that depends on
sizes only.

All of this is in terms of sizes, so the condition on a call can be decided from the state before
it. Each loop is shown to return if the condition holds, by induction on what is left; that it does
not return otherwise is in `SliceSize`, for the two loops that a caller can make run forever.
-/

namespace TcpServer.Buffer

variable {α : Type*}

/-! ### Room behind the last slice

The room behind the last slice is filled before a new slice is asked for. A call that adds several
strings one by one meets the room that the string before has left.
-/

/-- The room behind the last slice; there is none without a slice. -/
def OwnedImpl.room (b : OwnedImpl α) : ℕ := b.slices.back.reservableSize

/-- The room behind the last slice once `n` bytes have been added: what is left of it, or of the new
slice for the bytes that did not fit. -/
def roomAfter (room n : ℕ) : ℕ := if n ≤ room then room - n else sliceSize (n - room) - (n - room)

/-- Strings of these sizes can be added one after another. -/
def FitEach : ℕ → List ℕ → Prop
  | _, [] => True
  | room, n :: ns => n ≤ room + maxSliceSize ∧ FitEach (roomAfter room n) ns

/-- The room behind the last slice once `s` has been moved there: `s` is coalesced into the last
slice, or it becomes the last slice. -/
def roomBehind (room : ℕ) (s : Slice α) : ℕ :=
  if s.canCoalesce ∧ s.dataSize < OwnedImpl.copyThreshold ∧ s.dataSize ≤ room then room - s.dataSize
  else s.reservableSize

/-- `n` bytes of these slices can be moved: a whole slice brings its own memory, and a part of a
slice is copied. -/
def MoveFits : ℕ → List (Slice α) → ℕ → Prop
  | _, [], _ => True
  | room, s :: l, n =>
    if n < s.dataSize then n ≤ room + maxSliceSize
    else if s.dataSize = 0 then MoveFits room l n
    else MoveFits (roomBehind room s) l (n - s.dataSize)

instance decidableFitEach : ∀ room ns, Decidable (FitEach room ns)
  | _, [] => inferInstanceAs (Decidable True)
  | room, n :: ns =>
    have := decidableFitEach (roomAfter room n) ns
    inferInstanceAs (Decidable (_ ∧ _))

instance decidableMoveFits : ∀ room (l : List (Slice α)) n, Decidable (MoveFits room l n)
  | _, [], _ => inferInstanceAs (Decidable True)
  | room, s :: l, n =>
    have := decidableMoveFits room l n
    have := decidableMoveFits (roomBehind room s) l (n - s.dataSize)
    inferInstanceAs (Decidable (if n < s.dataSize then n ≤ room + maxSliceSize
      else if s.dataSize = 0 then MoveFits room l n
      else MoveFits (roomBehind room s) l (n - s.dataSize)))

namespace OwnedImpl

variable {b b' other : OwnedImpl α} {w w' : World α}

theorem room_of_nil (h : b.slices.toList = []) : b.room = 0 := by
  rw [room, SliceDeque.back_eq, h]
  rfl

/-- The room is that of the last slice. -/
theorem room_of_concat {l : List (Slice α)} {s : Slice α} (h : b.slices.toList = l ++ [s]) :
    b.room = s.reservableSize := by
  rw [room, SliceDeque.back_of_concat h]

/-- What is appended takes up the room. -/
theorem reservableSize_of_appended {s s' : Slice α} {d : List α} (h : s.Appended d s') :
    s'.reservableSize = s.reservableSize - d.length := by
  rw [Slice.reservableSize, Slice.reservableSize, h.capacity, h.reservable, Nat.sub_add_eq]

/-- A new slice takes all the bytes. -/
theorem exists_addImplLoop (fuel : ℕ) {d : List α} (hne : d ≠ []) (hd : d.length ≤ maxSliceSize)
    (b : OwnedImpl α) (w : World α) :
    ∃ b' w', addImplLoop (fuel + 1) true d b w = some (b', w') ∧
      b'.room = sliceSize d.length - d.length := by
  obtain ⟨x, xs, rfl⟩ := List.exists_cons_of_ne_nil hne
  have hfresh := Slice.fresh_create (x :: xs).length b.account w
  have hl := b.toList_emplaceBackSlice (x :: xs).length w
  have hroom : (Slice.create (x :: xs).length b.account w).1.reservableSize =
      sliceSize (x :: xs).length := by
    rw [Slice.reservableSize, hfresh.capacity, hfresh.reservable, Nat.sub_zero]
  obtain ⟨s', happend, hs'⟩ :=
    hfresh.wf.append_spec (x :: xs) (b.emplaceBackSlice (x :: xs).length w).2
  rw [hroom, Nat.min_eq_left (le_sliceSize hd)] at happend hs'
  rw [List.take_length] at hs'
  rw [addImplLoop]
  simp only [if_true, SliceDeque.back_of_concat hl, happend, List.drop_length]
  refine ⟨_, _, by cases fuel <;> rfl, ?_⟩
  rw [room, SliceDeque.back_of_concat (SliceDeque.setBack_of_concat hl s'),
    reservableSize_of_appended hs', hroom]

/-- `add` returns if what does not fit behind the last slice fits into a new one. -/
theorem exists_addImpl (hb : b.WF) {d : List α} (hd : d.length ≤ b.room + maxSliceSize)
    (w : World α) :
    ∃ b' w', b.addImpl d w = some (b', w') ∧ b'.room = roomAfter b.room d.length := by
  rcases eq_or_ne d [] with rfl | hne
  · exact ⟨b, w, rfl, (if_pos (Nat.zero_le _)).symm⟩
  rcases List.eq_nil_or_concat' b.slices.toList with hnil | ⟨l, s, hl⟩
  · have hroom := room_of_nil hnil
    rw [hroom, Nat.zero_add] at hd
    obtain ⟨b', w', hadd, hroom'⟩ := exists_addImplLoop d.length hne hd b w
    have hpos : 0 < d.length := List.length_pos_of_ne_nil hne
    refine ⟨b', w', ?_, ?_⟩
    · rw [addImpl, SliceDeque.isEmpty_iff.2 hnil]
      exact hadd
    · rw [hroom', roomAfter, hroom, if_neg (by omega), Nat.sub_zero]
  · have hs : s.WF := hb s (by rw [hl]; exact List.mem_append_right l (List.mem_singleton_self s))
    have hroom := room_of_concat hl
    by_cases hfits : d.length ≤ b.room
    · obtain ⟨b', s', hadd, hs', hl', -⟩ := addImpl_of_fits hb hl (d := d) (hroom ▸ hfits) w
      refine ⟨b', w, hadd, ?_⟩
      rw [room_of_concat hl', reservableSize_of_appended hs', ← hroom, roomAfter, if_pos hfits]
    · -- The rest goes to a new slice.
      obtain ⟨x, xs, rfl⟩ := List.exists_cons_of_ne_nil hne
      obtain ⟨s', happend, hs'⟩ := hs.append_spec (x :: xs) w
      rw [← hroom, Nat.min_eq_right (by omega)] at happend
      have hrest : ((x :: xs).drop b.room).length = (x :: xs).length - b.room := List.length_drop
      have hne' : (x :: xs).drop b.room ≠ [] := by
        rw [← List.length_pos_iff, hrest]
        omega
      obtain ⟨b', w', hadd, hroom'⟩ := exists_addImplLoop xs.length hne'
        (by rw [hrest]; omega)
        { b with slices := b.slices.setBack s', length := b.length + .ofNat b.room } w
      have hempty : b.slices.isEmpty = false := by
        rw [← Bool.not_eq_true, SliceDeque.isEmpty_iff, hl]
        exact List.append_ne_nil_of_right_ne_nil _ (List.cons_ne_nil _ _)
      refine ⟨b', w', ?_, ?_⟩
      · rw [addImpl, hempty, List.length_cons, addImplLoop]
        simp only [Bool.false_eq_true, if_false, SliceDeque.back_of_concat hl, happend]
        exact hadd
      · rw [hroom', hrest, roomAfter, if_neg hfits]

/-- Strings that fit one after another are added. -/
theorem addEach_isSome_of_fitEach (hb : b.WF) {ds : List (List α)}
    (hds : FitEach b.room (ds.map List.length)) : (addEach ds b w).isSome := by
  induction ds generalizing b w with
  | nil => rfl
  | cons d ds ih =>
    obtain ⟨b₁, w₁, hadd, hroom⟩ := exists_addImpl hb hds.1 w
    rw [addEach, hadd, Option.bind_some]
    exact ih ((addImpl_spec hb hadd).wf hb) (hroom ▸ hds.2)

/-- `addFragments` asks for one slice with room for all strings if there is none. -/
theorem addFragments_isSome_of_fitEach (hb : b.WF) {ds : List (List α)}
    (hsum : (ds.map List.length).sum < 2 ^ 64)
    (hds : FitEach
      (if b.slices.isEmpty then sliceSize (ds.map List.length).sum else b.room)
      (ds.map List.length)) : (b.addFragments ds w).isSome := by
  rw [addFragments, Nat.mod_eq_of_lt hsum]
  cases hempty : b.slices.isEmpty with
  | true =>
    rw [hempty, if_pos rfl] at hds
    have hfresh := Slice.fresh_create (ds.map List.length).sum b.account w
    have hl := b.toList_emplaceBackSlice (ds.map List.length).sum w
    have hroom : (b.emplaceBackSlice (ds.map List.length).sum w).1.room =
        sliceSize (ds.map List.length).sum := by
      rw [room_of_concat hl, Slice.reservableSize, hfresh.capacity, hfresh.reservable, Nat.sub_zero]
    simp only [if_true]
    split_ifs
    · rfl
    · rw [Option.isSome_map]
      exact addEach_isSome_of_fitEach ((b.adds_emplaceBackSlice _ w).wf hb) (hroom ▸ hds)
  | false =>
    rw [hempty, if_neg Bool.false_ne_true] at hds
    simp only [Bool.false_eq_true, if_false]
    split_ifs
    · rfl
    · rw [Option.isSome_map]
      exact addEach_isSome_of_fitEach hb hds

/-! ### Room in front of the first slice

In front it is the first slice, and the room is what was drained of it, or all of it if it has no
data.
-/

/-- The room in front of the data of the first slice. -/
def frontRoom (b : OwnedImpl α) : ℕ :=
  if b.slices.front.dataSize = 0 then b.slices.front.capacity else b.slices.front.data

/-- `prepend` returns if what does not fit in front of the first slice fits into a new one. -/
theorem prepend_isSome_of_room (hb : b.WF) {d : List α}
    (hd : d.length ≤ b.frontRoom + maxSliceSize) :
    (b.prepend d w).isSome := by
  rw [prepend]
  rcases eq_or_ne d [] with rfl | hne
  · rfl
  obtain ⟨x, xs, rfl⟩ := List.exists_cons_of_ne_nil hne
  cases hl : b.slices.toList with
  | nil =>
    have hroom : b.frontRoom = 0 := by
      rw [frontRoom, SliceDeque.front_eq, hl]
      rfl
    rw [hroom, Nat.zero_add] at hd
    rw [SliceDeque.isEmpty_iff.2 hl]
    exact prependLoop_isSome hd
  | cons s l =>
    have hs : s.WF := hb s (by rw [hl]; exact List.mem_cons_self)
    have hempty : b.slices.isEmpty = false := by
      rw [← Bool.not_eq_true, SliceDeque.isEmpty_iff, hl]
      exact List.cons_ne_nil s l
    have hsize : (x :: xs).length - s.prependSize (x :: xs).length ≤ maxSliceSize := by
      rw [frontRoom, SliceDeque.front_of_cons hl] at hd
      rw [Slice.prependSize]
      split_ifs at hd ⊢ <;> omega
    obtain ⟨s', w₁, hprepend, -⟩ := hs.prepend_spec hne w
    rw [hempty, List.length_cons, prependLoop]
    simp only [Bool.false_eq_true, if_false, SliceDeque.front_of_cons hl, hprepend]
    refine prependLoop_isSome ?_
    rw [List.length_take]
    exact (Nat.min_le_left _ _).trans hsize

/-! ### Moves

A slice that is moved whole needs no new slice. Only the part of a slice at the end of a partial
move is added as a string is.
-/

theorem reservableSize_maybeChargeAccount (s : Slice α) (account : Option ℕ) (w : World α) :
    (s.maybeChargeAccount account w).1.reservableSize = s.reservableSize := by
  rw [Slice.maybeChargeAccount]
  split_ifs <;> rfl

/-- The room that a moved slice leaves. -/
theorem exists_moveFront_room {s : Slice α} {l : List (Slice α)} (hb : b.WF) (ho : other.WF)
    (hl : other.slices.toList = s :: l) (hne : s.dataSize ≠ 0) (w : World α) :
    ∃ b' other' w', b.moveFront other w = some (b', other', w') ∧
      MovesFront s b other w b' other' w' ∧ b'.room = roomBehind b.room s := by
  obtain ⟨b', other', w', hmove, hmoves⟩ := exists_moveFront hb ho hl w
  refine ⟨b', other', w', hmove, hmoves, ?_⟩
  have hs : s.WF := ho s (by rw [hl]; exact List.mem_cons_self)
  rw [moveFront, SliceDeque.front_of_cons hl, coalesceOrAddSlice] at hmove
  dsimp only at hmove
  rw [roomBehind]
  split at hmove
  · rename_i hco
    -- the bytes are copied behind the last slice, which has so much less room then
    obtain ⟨hcan, hnil, hlt, hroom⟩ := hco
    obtain ⟨l₁, t, hl₁⟩ := (List.eq_nil_or_concat' b.slices.toList).resolve_left
      fun h ↦ hnil (SliceDeque.isEmpty_iff.2 h)
    have hroom' := room_of_concat hl₁
    rw [SliceDeque.back_of_concat hl₁] at hroom
    obtain ⟨b₁, t', hadd, happ, hl₁', -⟩ :=
      addImpl_of_fits hb hl₁ (d := s.bytes w) (by rw [hs.length_bytes]; exact hroom) w
    rw [hadd, Option.map_some, Option.map_some] at hmove
    obtain ⟨rfl, -⟩ := Prod.mk.inj (Option.some.inj hmove)
    rw [if_pos ⟨hcan, hlt, hroom' ▸ hroom⟩]
    rw [room_of_concat (SliceDeque.setBack_of_concat hl₁' _), SliceDeque.back_of_concat hl₁']
    show t'.reservableSize = _
    rw [reservableSize_of_appended happ, hs.length_bytes, hroom']
  · rename_i hco
    obtain ⟨rfl, -⟩ := Prod.mk.inj (Option.some.inj hmove)
    rw [if_neg ?_]
    · rw [room_of_concat
        (SliceDeque.toList_emplaceBack _ _ (s.maybeChargeAccount b.account w).2),
        reservableSize_maybeChargeAccount]
    -- `roomBehind` does not ask for a last slice, but without one there is no room for data
    · rintro ⟨hcan, hlt, hroom⟩
      refine hco ⟨hcan, fun h ↦ hne ?_, hlt, hroom⟩
      rw [room_of_nil (SliceDeque.isEmpty_iff.1 h)] at hroom
      exact Nat.le_zero.1 hroom

/-- The moves that fit return. -/
theorem moveLength_isSome_of_moveFits (hb : b.WF) (ho : other.WF) {n : ℕ}
    (hn : MoveFits b.room other.slices.toList n) : (b.moveLength other n w).isSome := by
  suffices hloop : ∀ fuel n (b other : OwnedImpl α) (w : World α), b.WF → other.WF →
      MoveFits b.room other.slices.toList n → (moveLengthLoop fuel n b other w).isSome from
    hloop _ n b other w hb ho hn
  intro fuel
  induction fuel with
  | zero => exact fun _ _ _ _ _ _ _ ↦ rfl
  | succ fuel ih =>
    intro n b other w hb ho hn
    rw [moveLengthLoop]
    rcases eq_or_ne n 0 with rfl | h0
    · simp
    cases hl : other.slices.toList with
    | nil =>
      rw [if_pos (.inr (SliceDeque.isEmpty_iff.2 hl))]
      rfl
    | cons s l =>
      have hs : s.WF := ho s (by rw [hl]; exact List.mem_cons_self)
      rw [hl, MoveFits] at hn
      rw [if_neg (by simp [SliceDeque.isEmpty_iff, hl, h0]), SliceDeque.front_of_cons hl]
      dsimp only
      by_cases hlt : n < s.dataSize
      · -- A part of the slice is copied, and nothing is left to be moved.
        rw [if_pos hlt] at hn
        have hmin : min s.dataSize n = n := Nat.min_eq_right hlt.le
        have hlen : ((s.bytes w).take n).length = n := by
          rw [List.length_take, hs.length_bytes, Nat.min_eq_left hlt.le]
        obtain ⟨b₁, w₁, hadd, -⟩ := exists_addImpl hb (by rw [hlen]; exact hn) w
        rw [hmin, if_neg h0, if_pos hlt, add, hadd, Option.bind_some, Nat.sub_self]
        cases fuel <;> simp [moveLengthLoop]
      rw [if_neg hlt] at hn
      by_cases hzero : s.dataSize = 0
      · obtain ⟨hpop, -⟩ := SliceDeque.popFront_of_cons hl w
        rw [if_pos hzero] at hn
        rw [if_pos (by rw [hzero, Nat.zero_min])]
        refine ih n b _ _ hb (fun t ht ↦ ho t ?_) ?_
        · rw [hl]
          exact List.mem_cons_of_mem s (hpop ▸ ht)
        · rw [hpop]
          exact hn
      · obtain ⟨b₁, other₁, w₁, hmove, hmoves, hroom⟩ := exists_moveFront_room hb ho hl hzero w
        obtain ⟨hb₁, ho₁⟩ := hmoves.wf hb ho
        have hmin : min s.dataSize n = s.dataSize := Nat.min_eq_left (Nat.le_of_not_lt hlt)
        have hrest := (List.cons.inj (hl.symm.trans hmoves.otherSlices)).2
        rw [if_neg hzero] at hn
        rw [hmin, if_neg hzero, if_neg (Nat.lt_irrefl _), hmove, Option.bind_some]
        exact ih _ b₁ other₁ w₁ hb₁ ho₁ (by rw [hroom, ← hrest]; exact hn)

end OwnedImpl

/-! ### The calls that have room

For each call, the condition of the operation that it stands for.
-/

/-- No slice is asked for that must hold more than `maxSliceSize` bytes. -/
def Op.Fits {ι κ : Type*} (st : Pool ι κ α) : Op ι κ α → Prop
  | .add i data => data.length ≤ (st.buffers i).room + maxSliceSize
  | .addInstance i j =>
    FitEach (st.buffers i).room (((st.buffers j).rawSlicesOf none).map Slice.dataSize)
  | .addFragments i fragments =>
    FitEach
      (if (st.buffers i).slices.isEmpty then sliceSize (fragments.map List.length).sum
        else (st.buffers i).room) (fragments.map List.length)
  | .appendSliceForTest _ data => data.length ≤ maxSliceSize
  | .prepend i data => data.length ≤ (st.buffers i).frontRoom + maxSliceSize
  | .moveLength i j length => MoveFits (st.buffers i).room (st.buffers j).slices.toList length
  | .extractMutableFrontSlice i =>
    ∀ s ∈ (left 0 (st.buffers i).slices.toList).head?,
      s.isMutable = false → s.dataSize ≤ maxSliceSize
  | _ => True

instance {ι κ : Type*} (st : Pool ι κ α) : ∀ op : Op ι κ α, Decidable (op.Fits st)
  | .add .. | .appendSliceForTest .. | .prepend .. => inferInstanceAs (Decidable (_ ≤ _))
  | .addInstance .. | .addFragments .. => inferInstanceAs (Decidable (FitEach _ _))
  | .moveLength .. => inferInstanceAs (Decidable (MoveFits _ _ _))
  | .extractMutableFrontSlice _ => inferInstanceAs (Decidable (∀ s ∈ List.head? _, _ → _))
  | .addBufferFragment .. | .prependInstance .. | .drain .. | .move .. | .linearize ..
  | .addDrainTracker .. | .bindAccount .. | .reserveForRead .. | .reserveWithMaxLength ..
  | .reserveSingleSlice .. | .write .. | .commit .. | .dropReservation _ | .destroySliceData _
  | .destroy _ =>
    inferInstanceAs (Decidable True)

end TcpServer.Buffer
