import TcpServer.Lib.Cursor
import TcpServer.Buffer.Transfers

/-!
# Copying out to several slices

`copyOutToSlices` reads with one cursor, a slice and an offset into it, and writes with another.
Both move by the least of what is left of the source slice, of the destination slice, and of the
bytes to be read, so every iteration finishes one of the three, even one that copies nothing.

`Linked` ties the cursors together: both stand `numBytesRead` bytes from the beginning, and those
bytes have been copied. The destination is a list of byte strings, one for each slice. Indexing past
the last slice of the buffer is undefined in the source and has no result here.

Neither cursor knows of the other, and slices of length zero are allowed on both sides, so an
iteration may copy nothing; the measure `remaining` counts the slices and the bytes that are left,
of which every iteration finishes one. The place of a cursor is a position in the list of the
lengths (`At` of the library), and advancing one is a lemma about such positions.
-/

namespace TcpServer.Buffer

open Cursor

variable {α : Type*}

/-- The local variables of `copyOutToSlices`, and the memory of the destination slices. -/
structure CopyState (α : Type*) where
  /-- How many bytes have been copied. -/
  numBytesRead : ℕ := 0
  /-- The destination slice that is written. -/
  numDestSlicesRead : ℕ := 0
  /-- The slice that is read. -/
  numSrcSlicesRead : ℕ := 0
  /-- Where in the destination slice the next byte goes. -/
  destSliceOffset : ℕ := 0
  /-- Where in the slice the next byte is. -/
  srcSliceOffset : ℕ := 0
  /-- The memory behind the destination slices. -/
  destSlices : List (List α)

namespace OwnedImpl

/-- The body of the loop. -/
def copyStep (b : OwnedImpl α) (w : World α) (totalLengthToRead : ℕ) (st : CopyState α) :
    Option (CopyState α) :=
  if st.numSrcSlicesRead < b.slices.size then
    let srcSlice := b.slices.get st.numSrcSlicesRead
    (st.destSlices[st.numDestSlicesRead]?).map fun destSlice ↦
      let leftToRead := totalLengthToRead - st.numBytesRead
      let leftDataSizeInDstSlice := destSlice.length - st.destSliceOffset
      let leftDataSizeInSrcSlice := srcSlice.dataSize - st.srcSliceOffset
      let lengthToCopy := min leftDataSizeInSrcSlice (min leftDataSizeInDstSlice leftToRead)
      let bytes := srcSlice.load w (srcSlice.data + st.srcSliceOffset) lengthToCopy
      let srcSliceOffset := st.srcSliceOffset + lengthToCopy
      let destSliceOffset := st.destSliceOffset + lengthToCopy
      let srcDone := srcSliceOffset = srcSlice.dataSize
      let destDone := destSliceOffset = destSlice.length
      { numBytesRead := st.numBytesRead + lengthToCopy
        numDestSlicesRead := if destDone then st.numDestSlicesRead + 1 else st.numDestSlicesRead
        numSrcSlicesRead := if srcDone then st.numSrcSlicesRead + 1 else st.numSrcSlicesRead
        destSliceOffset := if destDone then 0 else destSliceOffset
        srcSliceOffset := if srcDone then 0 else srcSliceOffset
        destSlices := st.destSlices.set st.numDestSlicesRead
          (Memory.overwrite st.destSliceOffset bytes destSlice) }
  else none

/-- The loop, with fuel for its iterations. -/
def copyLoop (b : OwnedImpl α) (w : World α) (totalLengthToRead : ℕ) :
    ℕ → CopyState α → Option (CopyState α)
  | 0, _ => none
  | fuel + 1, st =>
    if st.numDestSlicesRead < st.destSlices.length ∧ st.numBytesRead < totalLengthToRead then
      (b.copyStep w totalLengthToRead st).bind (b.copyLoop w totalLengthToRead fuel)
    else some st

/-- The number of bytes that were read, and the memory of the destination slices. Each iteration
finishes a slice of the source, a slice of the destination, or the last byte. -/
def copyOutToSlices (b : OwnedImpl α) (size : ℕ) (destSlices : List (List α)) (w : World α) :
    Option (ℕ × List (List α)) :=
  let totalLengthToRead := min size b.length.toNat
  (b.copyLoop w totalLengthToRead (b.slices.size + destSlices.length + 2) { destSlices }).map
    fun st ↦ (st.numBytesRead, st.destSlices)

end OwnedImpl

/-- Both cursors stand `numBytesRead` bytes from the beginning, and those bytes have been copied. -/
structure Linked (w : World α) (l : List (Slice α)) (destSlices : List (List α)) (total : ℕ)
    (st : CopyState α) : Prop where
  /-- No more is copied than is to be read. -/
  read_le : st.numBytesRead ≤ total
  /-- The source cursor stands behind the bytes that were read. -/
  src : At (l.map Slice.dataSize) st.numBytesRead st.numSrcSlicesRead st.srcSliceOffset
  /-- The destination cursor stands behind the bytes that were written. -/
  dest : At (destSlices.map List.length) st.numBytesRead st.numDestSlicesRead st.destSliceOffset
  /-- The destination keeps its slices. -/
  lengths : st.destSlices.map List.length = destSlices.map List.length
  /-- The bytes read are in place, and the rest of the destination is as it was. -/
  copied : st.destSlices.flatten =
    (contentOf w l).take st.numBytesRead ++ destSlices.flatten.drop st.numBytesRead

/-- What the loop has still to finish. -/
def CopyState.remaining (l : List (Slice α)) (destSlices : List (List α)) (total : ℕ)
    (st : CopyState α) : ℕ :=
  (l.length - st.numSrcSlicesRead) + (destSlices.length - st.numDestSlicesRead) +
    if st.numBytesRead < total then 1 else 0

/-- A part of a slice is a part of the content. -/
theorem load_eq_of_getElem? {w : World α} {l : List (Slice α)} (hl : ∀ s ∈ l, s.WF) {i : ℕ}
    {s : Slice α} (hi : l[i]? = some s) {offset n : ℕ} (h : offset + n ≤ s.dataSize) :
    s.load w (s.data + offset) n =
      ((contentOf w l).drop (dataSizes (l.take i) + offset)).take n := by
  obtain ⟨hlt, rfl⟩ := List.getElem?_eq_some_iff.1 hi
  have hs := hl _ (List.getElem_mem hlt)
  have hbefore : (contentOf w (l.take i)).length = dataSizes (l.take i) :=
    length_contentOf w fun t ht ↦ hl t (List.mem_of_mem_take ht)
  have hsplit : contentOf w l =
      contentOf w (l.take i) ++ (l[i].bytes w ++ contentOf w (l.drop (i + 1))) := by
    rw [← contentOf_cons, ← contentOf_append, List.getElem_cons_drop, List.take_append_drop]
  have hlen := hs.length_bytes w
  rw [Slice.load_data_add _ _ h, hsplit, ← hbefore, List.drop_length_add_append,
    List.drop_append_of_le_length (by omega), List.take_append_of_le_length]
  rw [List.length_drop]
  omega

/-- Copying the next bytes to where the destination cursor is. -/
theorem overwrite_copied {content dest : List α} {n k : ℕ} (hn : n ≤ content.length)
    (hk : n + k ≤ content.length) :
    Memory.overwrite n ((content.drop n).take k) (content.take n ++ dest.drop n) =
      content.take (n + k) ++ dest.drop (n + k) := by
  have hpre : (content.take n).length = n := List.length_take_of_le hn
  have hbytes : ((content.drop n).take k).length = k := by
    rw [List.length_take, List.length_drop]
    omega
  have hover := Memory.overwrite_append (content.take n) 0 ((content.drop n).take k) (dest.drop n)
  rw [hpre, Nat.add_zero] at hover
  rw [hover, Memory.overwrite, List.take_zero, List.nil_append, Nat.zero_add, hbytes,
    List.drop_drop, List.take_add, List.append_assoc]

namespace OwnedImpl

variable {b : OwnedImpl α} {w : World α} {destSlices : List (List α)} {total : ℕ} {st : CopyState α}

/-- **One iteration** copies what both cursors allow, and finishes something. -/
theorem copyStep_linked (hb : b.WF) (htotal : total ≤ dataSizes b.slices.toList)
    (h : Linked w b.slices.toList destSlices total st)
    (hdest : st.numDestSlicesRead < destSlices.length) (hread : st.numBytesRead < total) :
    ∃ st', b.copyStep w total st = some st' ∧ Linked w b.slices.toList destSlices total st' ∧
      st'.remaining b.slices.toList destSlices total <
        st.remaining b.slices.toList destSlices total := by
  have hcount : st.destSlices.length = destSlices.length := by
    have := congrArg List.length h.lengths
    simpa using this
  -- There is a source slice under the cursor, since there are bytes left.
  have hsrc : st.numSrcSlicesRead < b.slices.size := by
    have := h.src.lt_length (Nat.lt_of_lt_of_le hread htotal)
    rwa [List.length_map, SliceDeque.length_toList] at this
  have hs := SliceDeque.getElem?_toList hsrc
  have hd : st.destSlices[st.numDestSlicesRead]? = some st.destSlices[st.numDestSlicesRead] :=
    List.getElem?_eq_getElem (by omega)
  have hsLen : (b.slices.toList.map Slice.dataSize)[st.numSrcSlicesRead]? =
      some (b.slices.get st.numSrcSlicesRead).dataSize := by rw [List.getElem?_map, hs,
        Option.map_some]
  have hdLen : (destSlices.map List.length)[st.numDestSlicesRead]? =
      some st.destSlices[st.numDestSlicesRead].length := by
    rw [← h.lengths, List.getElem?_map, hd, Option.map_some]
  have hsOffset := h.src.offset_le _ hsLen
  have hdOffset := h.dest.offset_le _ hdLen
  rw [copyStep, if_pos hsrc, hd]
  refine ⟨_, rfl, ?_, ?_⟩
  all_goals
    dsimp only
    generalize b.slices.get st.numSrcSlicesRead = s at hs hsLen hsOffset ⊢
    generalize st.destSlices[st.numDestSlicesRead] = d at hd hdLen hdOffset ⊢
    generalize hk : min (s.dataSize - st.srcSliceOffset) (min (d.length - st.destSliceOffset)
      (total - st.numBytesRead)) = k
  · have hload := load_eq_of_getElem? (w := w) hb hs (show st.srcSliceOffset + k ≤ _ by omega)
    have hplace : dataSizes (b.slices.toList.take st.numSrcSlicesRead) + st.srcSliceOffset =
        st.numBytesRead := by
      rw [h.src.place, dataSizes, List.map_take]
    have hcontent : (contentOf w b.slices.toList).length = dataSizes b.slices.toList :=
      length_contentOf w hb
    have hbytes : (((contentOf w b.slices.toList).drop st.numBytesRead).take k).length = k := by
      rw [List.length_take, List.length_drop]
      omega
    rw [hplace] at hload
    rw [hload]
    refine ⟨show st.numBytesRead + k ≤ total by omega, h.src.advance hsLen (by omega),
      h.dest.advance hdLen (by omega), ?_, ?_⟩
    · obtain ⟨hlt, hval⟩ := List.getElem?_eq_some_iff.1 hdLen
      rw [List.map_set, Memory.length_overwrite (by omega), ← hval, h.lengths]
      exact List.set_getElem_self hlt
    · rw [Memory.flatten_set_overwrite hd (by omega), h.lengths, ← h.dest.place, h.copied]
      exact overwrite_copied (by omega) (by omega)
  · rw [CopyState.remaining, CopyState.remaining]
    dsimp only
    rw [SliceDeque.length_toList]
    split_ifs <;> omega

/-- The loop ends, with the cursors linked, and nothing left to do. -/
theorem copyLoop_linked (hb : b.WF) (htotal : total ≤ dataSizes b.slices.toList) {fuel : ℕ}
    (h : Linked w b.slices.toList destSlices total st)
    (hfuel : st.remaining b.slices.toList destSlices total < fuel) :
    ∃ st', b.copyLoop w total fuel st = some st' ∧ Linked w b.slices.toList destSlices total st' ∧
      (destSlices.length ≤ st'.numDestSlicesRead ∨ st'.numBytesRead = total) := by
  have hcount : st.destSlices.length = destSlices.length := by
    have := congrArg List.length h.lengths
    simpa using this
  induction fuel generalizing st with
  | zero => omega
  | succ fuel ih =>
    rw [copyLoop]
    split_ifs with hmore
    · obtain ⟨st', hstep, hlinked, hless⟩ := copyStep_linked hb htotal h (hcount ▸ hmore.1) hmore.2
      rw [hstep, Option.bind_some]
      refine ih hlinked (by omega) ?_
      have := congrArg List.length hlinked.lengths
      simpa using this
    · have := h.read_le
      exact ⟨st, rfl, h, by omega⟩

/-- **`copyOutToSlices` copies the first bytes of the buffer**, as many as are asked for, there are,
and the destination can take. -/
theorem copyOutToSlices_spec (hb : b.WF)
    (hlength : b.length.toNat = (contentOf w b.slices.toList).length) (size : ℕ)
    (destSlices : List (List α)) :
    ∃ n destSlices', b.copyOutToSlices size destSlices w = some (n, destSlices') ∧
      n = min size (min (contentOf w b.slices.toList).length (destSlices.map List.length).sum) ∧
      destSlices'.map List.length = destSlices.map List.length ∧
      destSlices'.flatten = (contentOf w b.slices.toList).take n ++ destSlices.flatten.drop n := by
  have hcontent : (contentOf w b.slices.toList).length = dataSizes b.slices.toList :=
    length_contentOf w hb
  have hinit : Linked w b.slices.toList destSlices (min size b.length.toNat) { destSlices } :=
    ⟨Nat.zero_le _, at_zero _, at_zero _, rfl, rfl⟩
  have hfuel : CopyState.remaining b.slices.toList destSlices (min size b.length.toNat)
      { destSlices } < b.slices.size + destSlices.length + 2 := by
    rw [CopyState.remaining, SliceDeque.length_toList]
    dsimp only
    split_ifs <;> omega
  obtain ⟨st, hloop, hlinked, hend⟩ := copyLoop_linked hb (by omega) hinit hfuel
  refine ⟨st.numBytesRead, st.destSlices, ?_, ?_, hlinked.lengths, hlinked.copied⟩
  · rw [copyOutToSlices, hloop]
    rfl
  · have hread := hlinked.read_le
    have hdest := hlinked.dest.le_sum
    rcases hend with hend | hend
    · have := hlinked.dest.eq_sum (by rwa [List.length_map])
      omega
    · omega

/-- Two slices of content, with an empty one in between. -/
def gappedContent : OwnedImpl ℕ × World ℕ :=
  let w₀ : World ℕ := { fragments := fun _ _ ↦ 0, fresh := fun _ _ ↦ 0 }
  let (b, w) := ({} : OwnedImpl ℕ).appendSliceForTest [7, 1] w₀
  let (b, w) := b.appendSliceForTest [] w
  b.appendSliceForTest [2, 3] w

/-- Three slices, of which one has no room, get the three bytes. -/
theorem copyOutToSlices_spec_gappedContent :
    ∃ destSlices, gappedContent.1.copyOutToSlices 9 [[0], [], [0, 0]] gappedContent.2 =
        some (3, destSlices) ∧
      destSlices.map List.length = [1, 0, 2] ∧ destSlices.flatten = [7, 1, 2] := by
  have hcontent : contentOf gappedContent.2 gappedContent.1.slices.toList =
      [7, 1, 2, 3] := by decide
  have hb : gappedContent.1.WF := by
    have hempty : ({} : OwnedImpl ℕ).WF := fun s hs ↦ absurd hs (by simp)
    have happend (b : OwnedImpl ℕ) (hb : b.WF) (d : List ℕ) (w : World ℕ) :
        (b.appendSliceForTest d w).1.WF := (appendSliceForTest_evolves hb d w).wf hb
    exact happend _ (happend _ (happend _ hempty _ _) _ _) _ _
  have hlength : gappedContent.1.length.toNat = 4 := by decide
  obtain ⟨n, destSlices, hcopy, hn, hlengths, hflatten⟩ :=
    copyOutToSlices_spec hb (w := gappedContent.2) (by rw [hcontent, hlength]; rfl) 9
      [[0], [], [0, 0]]
  rw [hcontent] at hn hflatten
  obtain rfl : n = 3 := hn
  exact ⟨destSlices, hcopy, hlengths, hflatten⟩

end OwnedImpl

end TcpServer.Buffer
