import TcpServer.Buffer.Room

/-!
# What a buffer holds

`Holds b w c` says that the buffer `b` holds the byte string `c`: its slices are well-formed, their
data are `c`, and the cached length counts `c`. Every operation is, on what the buffers hold, one
operation on byte strings.

The cached length is a `uint64_t`, so what is said of it is said modulo `2 ^ 64`. It is the number
of bytes itself as long as there are fewer than `2 ^ 64` of them (`Holds.toNat_length`).

The lemmas are named after the operations. Those that take memory have a condition on the sizes that
the source would compute for new slices (`room`, `FitEach`, `MoveFits`), since the size of a slice
wraps; under it the operation has a result, and the result holds the string that it should. For
those that take none there is no condition but the one on the number of bytes.
-/

namespace TcpServer.Buffer

variable {α : Type*}

namespace OwnedImpl

/-- The buffer holds the byte string `c`. -/
structure Holds (b : OwnedImpl α) (w : World α) (c : List α) : Prop where
  /-- Its slices are well-formed. -/
  wf : b.WF
  /-- The data of its slices, in order. -/
  content : contentOf w b.slices.toList = c
  /-- The cached length, modulo `2 ^ 64`. -/
  length : b.length = .ofNat c.length

variable {b b' other other' : OwnedImpl α} {w w' : World α} {c d : List α}

theorem holds_empty (w : World α) : ({} : OwnedImpl α).Holds w [] := by
  have hnil : ({} : OwnedImpl α).slices.toList = [] := SliceDeque.toList_empty
  refine ⟨fun s hs ↦ ?_, ?_, rfl⟩
  · rw [hnil] at hs
    exact absurd hs List.not_mem_nil
  · rw [hnil]
    rfl

/-- What a buffer holds depends on the memory of its fragments, and on no other. -/
theorem Holds.congr (h : b.Holds w c) (hw : w'.fragments = w.fragments) : b.Holds w' c :=
  ⟨h.wf, (contentOf_congr hw _).trans h.content, h.length⟩

theorem Holds.dataSizes_eq (h : b.Holds w c) : dataSizes b.slices.toList = c.length := by
  rw [← length_contentOf w h.wf, h.content]

theorem Holds.toNat_length (h : b.Holds w c) (hc : c.length < 2 ^ 64) :
    b.length.toNat = c.length := by
  rw [h.length, UInt64.toNat_ofNat', Nat.mod_eq_of_lt hc]

/-- A buffer without slices holds nothing. -/
theorem Holds.eq_nil (h : b.Holds w c) (hnil : b.slices.toList = []) : c = [] := by
  rw [← h.content, hnil]
  rfl

/-! ### Adding

`add` and its relatives put the string at the end. What they write may begin in the room of the last
slice and go on in new ones.
-/

theorem Holds.adds (hb : b.Holds w c) (h : Adds d b w b' w') : b'.Holds w' (c ++ d) := by
  refine ⟨h.wf hb.wf, ?_, ?_⟩
  · rw [h.slices.contentOf, contentOf_congr h.evolves.fragments, hb.content]
  · rw [h.length, hb.length, List.length_append, UInt64.ofNat_add]

/-- A string is appended as long as the size of the slice for it does not wrap. -/
theorem Holds.add (hb : b.Holds w c) (hd : d.length ≤ b.room + maxSliceSize) :
    ∃ b' w', b.add d w = some (b', w') ∧ b'.Holds w' (c ++ d) := by
  obtain ⟨b', w', hadd, -⟩ := exists_addImpl hb.wf hd w
  exact ⟨b', w', hadd, hb.adds (addImpl_spec hb.wf hadd)⟩

/-- So are several strings, one behind the other. -/
theorem Holds.addFragments {ds : List (List α)} (hb : b.Holds w c)
    (hsum : (ds.map List.length).sum < 2 ^ 64)
    (hds : FitEach (if b.slices.isEmpty then sliceSize (ds.map List.length).sum else b.room)
      (ds.map List.length)) :
    ∃ n b' w', b.addFragments ds w = some (n, b', w') ∧ b'.Holds w' (c ++ ds.flatten) := by
  obtain ⟨⟨n, b', w'⟩, hadd⟩ :=
    Option.isSome_iff_exists.1 (addFragments_isSome_of_fitEach (w := w) hb.wf hsum hds)
  exact ⟨n, b', w', hadd, hb.adds (addFragments_spec hb.wf hsum hadd)⟩

theorem Holds.appendSliceForTest (hb : b.Holds w c) (hd : d.length ≤ maxSliceSize) :
    (b.appendSliceForTest d w).1.Holds (b.appendSliceForTest d w).2 (c ++ d) := by
  obtain ⟨hacc, hlength, hext⟩ := appendSliceForTest_spec hb.wf d w
  rw [Nat.min_eq_left (le_sliceSize hd), List.take_length] at hext
  exact hb.adds ⟨hacc, hlength, hext⟩

/-- A fragment is read from the memory of the caller. -/
theorem Holds.addBufferFragment (hb : b.Holds w c) (fragment : BufferFragment) :
    (b.addBufferFragment fragment w).1.Holds (b.addBufferFragment fragment w).2
      (c ++ Memory.read (w.fragments fragment.id) 0 fragment.size) := by
  have hworld : (b.addBufferFragment fragment w).2 = w := by
    simp [OwnedImpl.addBufferFragment]
  have hevolves := addBufferFragment_evolves b fragment w
  have hbytes : (Slice.ofFragment fragment : Slice α).bytes w =
      Memory.read (w.fragments fragment.id) 0 fragment.size := rfl
  refine ⟨fun s hs ↦ ?_, ?_, ?_⟩
  · refine hevolves.wf (fun t ht ↦ ?_) s hs
    rcases Multiset.mem_add.1 ht with ht | ht
    · exact hb.wf t ht
    · obtain rfl := List.mem_singleton.1 (Multiset.mem_coe.1 ht)
      exact Slice.wf_carrying _
  · rw [hworld, toList_addBufferFragment, contentOf_append, hb.content, contentOf_cons, hbytes,
      contentOf_nil, List.append_nil]
  · rw [List.length_append, Memory.length_read, UInt64.ofNat_add, ← hb.length]
    rfl

/-! ### Reading

Reading goes over the slices that have data, of which `getRawSlices` selects as many as are wanted.
-/

/-- With room for all of them, all slices with data are selected. -/
theorem flatMap_selectSlices (w : World α) {n : ℕ} {l : List (Slice α)} (hl : ∀ s ∈ l, s.WF)
    (hn : l.length ≤ n) : contentOf w (selectSlices n l) = contentOf w l := by
  induction l generalizing n with
  | nil => cases n <;> rfl
  | cons s l ih =>
    obtain ⟨n, rfl⟩ := Nat.exists_eq_succ_of_ne_zero (n := n) (by
      rw [List.length_cons] at hn
      omega)
    have hl' := fun t ht ↦ hl t (List.mem_cons_of_mem s ht)
    rw [List.length_cons] at hn
    rw [selectSlices]
    split_ifs with h0
    · have hnil : s.bytes w = [] := ((hl s List.mem_cons_self).bytes_eq_nil_iff w).2 h0
      rw [ih hl' (by omega), contentOf_cons, hnil, List.nil_append]
    · rw [contentOf_cons, contentOf_cons, ih hl' (by omega)]

/-- The selected slices are slices with data. -/
theorem of_mem_selectSlices {n : ℕ} {l : List (Slice α)} {s : Slice α} (hs : s ∈ selectSlices n l) :
    s ∈ l ∧ s.dataSize ≠ 0 := by
  induction l generalizing n with
  | nil => cases n <;> exact absurd hs List.not_mem_nil
  | cons t l ih =>
    cases n with
    | zero => exact absurd hs List.not_mem_nil
    | succ n =>
      rw [selectSlices] at hs
      split_ifs at hs with h0
      · obtain ⟨hmem, hsize⟩ := ih hs
        exact ⟨List.mem_cons_of_mem t hmem, hsize⟩
      · rcases List.mem_cons.1 hs with rfl | hs
        · exact ⟨List.mem_cons_self, h0⟩
        · obtain ⟨hmem, hsize⟩ := ih hs
          exact ⟨List.mem_cons_of_mem t hmem, hsize⟩

/-- Fewer slices hold the first bytes. -/
theorem selectSlices_prefix (w : World α) (n : ℕ) {l : List (Slice α)} (hl : ∀ s ∈ l, s.WF) :
    contentOf w (selectSlices n l) <+: contentOf w l := by
  induction l generalizing n with
  | nil => cases n <;> exact List.prefix_rfl
  | cons s l ih =>
    have hl' := fun t ht ↦ hl t (List.mem_cons_of_mem s ht)
    cases n with
    | zero => exact List.nil_prefix
    | succ n =>
      rw [selectSlices]
      split_ifs with h0
      · have hnil : s.bytes w = [] := ((hl s List.mem_cons_self).bytes_eq_nil_iff w).2 h0
        rw [contentOf_cons, hnil, List.nil_append]
        exact ih _ hl'
      · rw [contentOf_cons, contentOf_cons]
        exact (List.prefix_append_right_inj _).2 (ih _ hl')

theorem contentOf_rawSlicesOf (hb : b.WF) (w : World α) :
    contentOf w (b.rawSlicesOf none) = contentOf w b.slices.toList :=
  flatMap_selectSlices w hb (Nat.le_of_eq b.slices.length_toList)

theorem flatten_getRawSlicesData (hb : b.WF) (w : World α) :
    (b.getRawSlicesData w).flatten = contentOf w b.slices.toList := by
  rw [getRawSlicesData, ← List.flatMap_def]
  exact contentOf_rawSlicesOf hb w

theorem Holds.toString_eq (hb : b.Holds w c) : b.toString w = c :=
  (flatten_getRawSlicesData hb.wf w).trans hb.content

/-- Any part of the content can be copied out. -/
theorem Holds.copyOut_eq (hb : b.Holds w c) (start size : ℕ) :
    b.copyOut start size w = (c.drop start).take size := by
  rw [OwnedImpl.copyOut_eq hb.wf, hb.content]

/-- The comparison goes slice by slice. -/
theorem startsWithLoop_iff [DecidableEq α] (w : World α) {l : List (Slice α)} (hl : ∀ s ∈ l, s.WF)
    {d : List α} (hd : d ≠ []) : startsWithLoop w l d = true ↔ d <+: contentOf w l := by
  induction l generalizing d with
  | nil =>
    rw [startsWithLoop, contentOf_nil, List.prefix_nil]
    exact ⟨fun h ↦ absurd h Bool.false_ne_true, fun h ↦ absurd h hd⟩
  | cons s l ih =>
    have hlen := (hl s List.mem_cons_self).length_bytes w
    have hl' := fun t ht ↦ hl t (List.mem_cons_of_mem s ht)
    rw [startsWithLoop, contentOf_cons]
    split_ifs with hlast hdiff
    · have hsplit : d <+: s.bytes w ++ contentOf w l ↔ d <+: s.bytes w :=
        ⟨fun h ↦ List.prefix_of_prefix_length_le h (List.prefix_append _ _) (by omega),
          fun h ↦ h.trans (List.prefix_append _ _)⟩
      rw [hsplit, decide_eq_true_iff, eq_comm, List.prefix_iff_eq_take]
    · refine ⟨fun h ↦ h.elim, fun h ↦ absurd ?_ hdiff⟩
      have hbytes := List.prefix_of_prefix_length_le
        (List.prefix_append (s.bytes w) (contentOf w l)) h (by omega)
      rw [← hlen]
      exact (List.prefix_iff_eq_take.1 hbytes).symm
    · -- The first bytes agree, and some are left to be compared.
      have hsame : d = s.bytes w ++ d.drop s.dataSize := by
        conv_lhs => rw [← List.take_append_drop s.dataSize d, of_not_not hdiff]
      rw [ih hl' (fun hnil ↦ hlast (List.drop_eq_nil_iff.1 hnil))]
      conv_rhs => rw [hsame]
      exact (List.prefix_append_right_inj _).symm

/-- `startsWith` compares as byte strings do. -/
theorem Holds.startsWith_iff [DecidableEq α] (hb : b.Holds w c) (hc : c.length < 2 ^ 64)
    (d : List α) : b.startsWith d w = true ↔ d <+: c := by
  rw [startsWith, hb.toNat_length hc]
  split_ifs with hlong hnil
  · exact ⟨fun h ↦ h.elim, fun h ↦ absurd h.length_le (Nat.not_le.2 hlong)⟩
  · rw [List.length_eq_zero_iff.1 hnil]
    exact ⟨fun _ ↦ List.nil_prefix, fun _ ↦ rfl⟩
  · rw [startsWithLoop_iff w hb.wf fun h ↦ hnil (by rw [h]; rfl), hb.content]

theorem Holds.addInstance (hb : b.Holds w c) (ho : other.Holds w d)
    (hfits : FitEach b.room ((other.rawSlicesOf none).map Slice.dataSize)) :
    ∃ b' w', b.addInstance other w = some (b', w') ∧ b'.Holds w' (c ++ d) := by
  have hsizes : (other.getRawSlicesData w).map List.length =
      (other.rawSlicesOf none).map Slice.dataSize := by
    rw [getRawSlicesData, List.map_map]
    refine List.map_congr_left fun s hs ↦ ?_
    exact (ho.wf s (of_mem_selectSlices hs).1).length_bytes w
  have hsome : (addEach (other.getRawSlicesData w) b w).isSome :=
    addEach_isSome_of_fitEach hb.wf (hsizes ▸ hfits)
  obtain ⟨⟨b', w'⟩, hadd⟩ := Option.isSome_iff_exists.1 hsome
  refine ⟨b', w', hadd, ?_⟩
  have := hb.adds (addEach_spec hb.wf hadd)
  rwa [flatten_getRawSlicesData ho.wf, ho.content] at this

/-! ### Adding in front

In front a string is written back to front, into the room before the data of the first slice and
then into new slices. The room may be in the memory of a fragment, which others may read as well.
-/

theorem Holds.prepends (hb : b.Holds w c) (h : Prepends d b w b' w') : b'.Holds w' (d ++ c) := by
  refine ⟨fun s hs ↦ ?_, ?_, ?_⟩
  · exact h.slices.evolves.wf (fun t ht ↦ hb.wf t ht) s hs
  · rw [h.slices.contentOf, contentOf_congr h.slices.evolves.fragments, hb.content]
  · rw [h.length, hb.length, List.length_append, Nat.add_comm, UInt64.ofNat_add]

/-- The bytes of slices over other memory do not change. -/
theorem contentOf_congr_of_base {l : List (Slice α)}
    (h : ∀ t ∈ l, ∀ f, t.base = some (.fragment f) → w'.fragments f = w.fragments f) :
    contentOf w' l = contentOf w l :=
  List.flatMap_congr fun t ht ↦
    Slice.load_congr (fun f hf ↦ h t ht f (Slice.base_eq_fragment_iff.2 hf)) _ _

/-- The string may be written to the memory of the fragment that the first slice is over. No other
slice may be over it. -/
theorem Holds.prepend (hb : b.Holds w c) (hd : d.length ≤ b.frontRoom + maxSliceSize)
    (halone : ∀ s l f, b.slices.toList = s :: l → s.base = some (.fragment f) →
      ∀ t ∈ l, t.base ≠ some (.fragment f)) :
    ∃ b' w', b.prepend d w = some (b', w') ∧ b'.Holds w' (d ++ c) := by
  obtain ⟨⟨b', w'⟩, hprepend⟩ :=
    Option.isSome_iff_exists.1 (prepend_isSome_of_room (w := w) hb.wf hd)
  refine ⟨b', w', hprepend, ?_⟩
  rcases prepend_spec hb.wf hprepend with ⟨-, hnew⟩ |
    ⟨s, l, s', w₁, d₁, d₂, hl, rfl, hs', hover, -, hacc, hlength, hnew⟩
  · exact hb.prepends hnew
  have hrest : contentOf w₁ l = contentOf w l := by
    refine contentOf_congr_of_base fun t ht f hf ↦ hover.fragments f fun hs ↦ ?_
    exact halone s l f hl hs t ht hf
  have hcontent := hb.content
  rw [hl, contentOf_cons] at hcontent
  refine ⟨fun t ht ↦ ?_, ?_, ?_⟩
  · refine hnew.evolves.wf (fun u hu ↦ ?_) t ht
    rcases List.mem_cons.1 (Multiset.mem_coe.1 hu) with rfl | hu
    · exact hs'.wf
    · exact hb.wf u (by rw [hl]; exact List.mem_cons_of_mem s hu)
  · rw [hnew.contentOf, contentOf_congr hnew.evolves.fragments, contentOf_cons, hs'.bytes, hrest,
      List.append_assoc, hcontent, List.append_assoc]
  · have hsum : (d₂ ++ d₁ ++ c).length = c.length + (d₂ ++ d₁).length := by
      rw [List.length_append, Nat.add_comm]
    rw [hlength, hb.length, hsum, UInt64.ofNat_add]

/-- The slices of `other` go to the front one by one. -/
theorem Holds.movesBack {s : Slice α} (hb : b.Holds w c) (ho : other.Holds w d)
    (h : MovesBack s b other w b' other' w') :
    ∃ d₁ d₂, d = d₁ ++ d₂ ∧ b'.Holds w' (d₂ ++ c) ∧ other'.Holds w' d₁ := by
  have hs : s.WF := ho.wf s (by rw [h.otherSlices]; simp)
  have hw := h.evolves.fragments
  obtain ⟨hb', ho'⟩ := wf_of_evolves h.evolves hb.wf ho.wf
  have hcontent := ho.content
  rw [h.otherSlices, contentOf_append, contentOf_cons, contentOf_nil, List.append_nil] at hcontent
  refine ⟨contentOf w other'.slices.toList, s.bytes w, hcontent.symm, ⟨hb', ?_, ?_⟩, ho', ?_, ?_⟩
  · rw [h.slices, contentOf_cons, Slice.bytes_maybeChargeAccount, Slice.bytes_congr hw,
      contentOf_congr hw, hb.content]
  · rw [h.length, hb.length, List.length_append, Nat.add_comm, UInt64.ofNat_add, hs.length_bytes]
  · exact contentOf_congr hw _
  · rw [h.otherLength, ho.length, ← hcontent, List.length_append, UInt64.ofNat_add,
      hs.length_bytes, UInt64.add_sub_cancel]

/-- The other buffer goes in front, and holds nothing afterwards. -/
theorem Holds.prependInstance (hb : b.Holds w c) (ho : other.Holds w d) :
    (b.prependInstance other w).1.Holds (b.prependInstance other w).2.2 (d ++ c) ∧
      (b.prependInstance other w).2.1.Holds (b.prependInstance other w).2.2 [] := by
  obtain ⟨⟨d₁, d₂, hsplit, hb', ho'⟩, hnil⟩ := prependInstance_induction
    (P := fun b' other' w' ↦
      ∃ d₁ d₂, d = d₁ ++ d₂ ∧ b'.Holds w' (d₂ ++ c) ∧ other'.Holds w' d₁)
    (fun s b other w b' other' w' hmoves ⟨d₁, d₂, hsplit, hb, ho⟩ ↦ by
      obtain ⟨d₃, d₄, rfl, hb', ho'⟩ := hb.movesBack ho hmoves
      refine ⟨d₃, d₄ ++ d₂, by rw [hsplit, List.append_assoc], ?_, ho'⟩
      rwa [List.append_assoc])
    ⟨d, [], (List.append_nil d).symm, hb, ho⟩
  obtain rfl := ho'.eq_nil hnil
  rw [hsplit]
  exact ⟨hb', ho'⟩

/-! ### Draining

The length of what is drained, linearized or extracted is counted in slices, and the first slice is
the only one that is cut.
-/

/-- The first `n` bytes and the others. -/
theorem ofNat_length_drop (c : List α) (n : ℕ) :
    UInt64.ofNat c.length - .ofNat (min n c.length) = .ofNat (c.drop n).length := by
  rw [← UInt64.ofNat_sub (Nat.min_le_right n c.length), List.length_drop]
  congr 1
  omega

/-- The first bytes are gone. -/
theorem Holds.drain (hb : b.Holds w c) (n : ℕ) :
    (b.drain n w).1.Holds (b.drain n w).2 (c.drop n) := by
  obtain ⟨hl, hw, -, hlength⟩ := drainImpl_spec hb.wf n w
  have hevolves := drainImpl_evolves hb.wf n w
  refine ⟨fun s hs ↦ hevolves.wf (fun t ht ↦ hb.wf t ht) s hs, ?_, ?_⟩
  · rw [OwnedImpl.drain, hl, contentOf_congr hevolves.fragments, contentOf_left n hb.wf, hb.content]
  · rw [OwnedImpl.drain, hlength, hb.length, hb.dataSizes_eq, ofNat_length_drop]

/-- The content stays, and the first bytes are in one slice. -/
theorem Holds.linearize {n : ℕ} (hb : b.Holds w c) (hc : c.length < 2 ^ 64)
    (hmax : n ≤ maxSliceSize) (hn : n ≤ c.length) :
    ∃ p b' w', b.linearize n w = some (p, b', w') ∧ b'.Holds w' c ∧
      n ≤ b'.slices.front.dataSize := by
  have hsome : (b.linearize n w).isSome := by
    rw [OwnedImpl.linearize, hb.toNat_length hc, if_neg (Nat.not_lt.2 hn)]
    split_ifs <;> rfl
  obtain ⟨⟨p, b', w'⟩, hlinearize⟩ := Option.isSome_iff_exists.1 hsome
  refine ⟨p, b', w', hlinearize, ?_⟩
  obtain ⟨-, ⟨rfl, rfl, hfront⟩ |
    ⟨s, l, d, new, -, -, happ, hdlen, hd, hl', hw', -, hlength⟩⟩ :=
    linearize_spec hb.wf hmax hlinearize
  · refine ⟨hb, ?_⟩
    cases hl : b'.slices.toList with
    | nil =>
      rw [hb.eq_nil hl] at hn
      exact hn.trans (Nat.zero_le _)
    | cons s l =>
      rw [SliceDeque.front_of_cons hl]
      exact hfront s l hl
  · have hevolves := linearize_evolves hb.wf hmax hlinearize
    have hfresh := Slice.fresh_create n b.account w
    rw [hb.dataSizes_eq] at hd hlength
    rw [hb.content] at hd
    refine ⟨⟨fun s hs ↦ hevolves.wf (fun t ht ↦ hb.wf t ht) s hs, ?_, ?_⟩, ?_⟩
    · rw [hl', contentOf_cons, happ.bytes, hfresh.bytes, List.nil_append,
        contentOf_congr hevolves.fragments, contentOf_left n hb.wf, hb.content, hd hn,
        List.take_append_drop]
    · rw [hlength, hb.length, Nat.min_eq_left hn, UInt64.sub_add_cancel]
    · rw [SliceDeque.front_of_cons hl', happ.dataSize, hfresh.dataSize, hdlen, Nat.zero_add]

/-- The extracted slice has the first bytes, at least one of them. -/
theorem Holds.extractMutableFrontSlice (hb : b.Holds w c) (hne : c ≠ []) (hc : c.length < 2 ^ 64)
    (hfits : ∀ s ∈ (left 0 b.slices.toList).head?, s.isMutable = false →
      s.dataSize ≤ maxSliceSize) :
    ∃ e b' w' p, b.extractMutableFrontSlice w = some (e, b', w') ∧ p ≠ [] ∧
      b'.Holds w' (c.drop p.length) ∧ c = p ++ c.drop p.length ∧ e.isMutable = true ∧
      e.bytes w' = p := by
  -- the empty slices in front have no bytes, so one that has some is behind them
  have hsome : (b.extractMutableFrontSlice w).isSome := by
    have hlength : b.length ≠ 0 := by
      intro h0
      have := hb.toNat_length hc
      rw [h0] at this
      exact hne (List.length_eq_zero_iff.1 this.symm)
    obtain ⟨hpop, -⟩ := popEmptyFront_spec (Nat.le_of_eq b.slices.length_toList) w
    have hnonempty : ¬(popEmptyFront b.slices.size b.slices w).1.isEmpty = true := by
      rw [SliceDeque.isEmpty_iff, hpop]
      intro hnil
      have := contentOf_left 0 hb.wf w
      rw [hnil, hb.content, List.drop_zero] at this
      exact hne this.symm
    rw [OwnedImpl.extractMutableFrontSlice, if_neg hlength]
    dsimp only
    rw [if_neg hnonempty]
    split_ifs <;> rfl
  obtain ⟨⟨e, b', w'⟩, hextract⟩ := Option.isSome_iff_exists.1 hsome
  obtain ⟨s, l, w₁, hleft, hl, -, hlength, hw₁, hcase⟩ :=
    extractMutableFrontSlice_spec hb.wf hextract
  have hevolves := extractMutableFrontSlice_evolves hb.wf hextract
  have hleftwf := (evolves_drain 0 hb.wf w).wf hb.wf
  have hs : s.WF := hleftwf s (by simp [slicesOf, hleft])
  have hcontent := contentOf_left 0 hb.wf w
  rw [hleft, contentOf_cons, hb.content, List.drop_zero] at hcontent
  have hsize := dataSize_of_left_eq_cons hb.wf hleft
  have hlen := hs.length_bytes w
  have hrest : c.drop (s.bytes w).length = contentOf w l := by
    rw [← hcontent, List.drop_left]
  refine ⟨e, b', w', s.bytes w, hextract, fun hnil ↦ ?_, ⟨fun t ht ↦ ?_, ?_, ?_⟩, ?_, ?_⟩
  · exact hsize ((hs.bytes_eq_nil_iff w).1 hnil)
  · exact hevolves.wf (fun u hu ↦ hb.wf u hu) t
      (by simpa [slicesOf] using Or.inr ht)
  · rw [hl, contentOf_congr hevolves.fragments, hrest]
  · have hle : s.dataSize ≤ c.length := by
      rw [← hcontent, List.length_append]
      omega
    rw [hlength, hb.length, List.length_drop, hlen, UInt64.ofNat_sub hle]
  · rw [hrest, hcontent]
  -- a mutable slice is handed out as it is, one over a fragment as a copy
  · rcases hcase with ⟨hmut, heq⟩ | ⟨himm, happ, -⟩
    · obtain ⟨rfl, -⟩ := Prod.mk.inj heq
      exact ⟨hmut, Slice.bytes_congr hevolves.fragments⟩
    · have hfresh := Slice.fresh_create (α := α) s.dataSize none w₁
      have hmax := hfits s (by rw [hleft]; rfl) himm
      refine ⟨(Slice.isMutable_eq_of_base happ.base).trans hfresh.owned, ?_⟩
      rw [happ.bytes, hfresh.bytes, List.nil_append, Nat.min_eq_left (le_sliceSize hmax), ← hlen,
        List.take_length]

/-! ### Moving

A move takes slices off the front of the one buffer and puts them at the end of the other. Only at
the end of a partial move bytes are copied.
-/

/-- The data of one slice change the buffer. -/
theorem Holds.movesFront {s : Slice α} (hb : b.Holds w c) (ho : other.Holds w d)
    (h : MovesFront s b other w b' other' w') :
    ∃ d₁ d₂, d = d₁ ++ d₂ ∧ d₁.length = s.dataSize ∧ b'.Holds w' (c ++ d₁) ∧
      other'.Holds w' d₂ := by
  have hs : s.WF := ho.wf s (by rw [h.otherSlices]; exact List.mem_cons_self)
  have hw := h.evolves.fragments
  obtain ⟨hb', ho'⟩ := h.wf hb.wf ho.wf
  have hcontent := ho.content
  rw [h.otherSlices, contentOf_cons] at hcontent
  refine ⟨s.bytes w, contentOf w other'.slices.toList, hcontent.symm, hs.length_bytes w,
    ⟨hb', ?_, ?_⟩, ho', contentOf_congr hw _, ?_⟩
  · rw [h.slices.contentOf, contentOf_congr hw, hb.content, Slice.bytes_congr hw]
  · rw [h.length, hb.length, List.length_append, UInt64.ofNat_add, hs.length_bytes]
  · rw [h.otherLength, ho.length, ← hcontent, List.length_append, Nat.add_comm, UInt64.ofNat_add,
      hs.length_bytes, UInt64.add_sub_cancel]

/-- A part of the first slice is copied and drained. -/
theorem Holds.movesPart {s : Slice α} {n : ℕ} (hb : b.Holds w c) (ho : other.Holds w d)
    (h : MovesPart s n b other w b' other' w') :
    ∃ d₁ d₂, d = d₁ ++ d₂ ∧ d₁.length = n ∧ b'.Holds w' (c ++ d₁) ∧ other'.Holds w' d₂ := by
  obtain ⟨l, hl, hl'⟩ := h.otherSlices
  have hs : s.WF := ho.wf s (by rw [hl]; exact List.mem_cons_self)
  have hw := (h.evolves ho.wf).fragments
  obtain ⟨-, ho'⟩ := wf_of_evolves (h.evolves ho.wf) hb.wf ho.wf
  obtain ⟨-, -, -, hbytes⟩ := hs.drain_spec h.lt
  have hlen : ((s.bytes w).take n).length = n := by
    rw [List.length_take, hs.length_bytes, Nat.min_eq_left h.lt.le]
  have hcontent := ho.content
  rw [hl, contentOf_cons, ← List.take_append_drop n (s.bytes w), List.append_assoc] at hcontent
  refine ⟨_, _, hcontent.symm, hlen, hb.adds h.adds, ho', ?_, ?_⟩
  · rw [hl', contentOf_cons, hbytes, Slice.bytes_congr hw, contentOf_congr hw]
  · rw [h.otherLength, ho.length, ← hcontent, List.length_append, hlen, Nat.add_comm,
      UInt64.ofNat_add, UInt64.add_sub_cancel]

theorem Holds.dropsFront {s : Slice α} (ho : other.Holds w d) (h : DropsFront s other w other' w') :
    other'.Holds w' d := by
  have hs : s.WF := ho.wf s (by rw [h.slices]; exact List.mem_cons_self)
  have hw := h.evolves.fragments
  refine ⟨fun t ht ↦ ho.wf t (by rw [h.slices]; exact List.mem_cons_of_mem s ht), ?_, ?_⟩
  · have hnil : s.bytes w = [] := (hs.bytes_eq_nil_iff w).2 h.dataSize
    rw [contentOf_congr hw, ← ho.content, h.slices, contentOf_cons, hnil, List.nil_append]
  · rw [h.length, ho.length]

/-- Everything is moved. -/
theorem Holds.move (hb : b.Holds w c) (ho : other.Holds w d) :
    ∃ b' other' w', b.move other w = some (b', other', w') ∧ b'.Holds w' (c ++ d) ∧
      other'.Holds w' [] := by
  obtain ⟨⟨b', other', w'⟩, hmove⟩ := Option.isSome_iff_exists.1 (move_isSome (w := w) hb.wf ho.wf)
  refine ⟨b', other', w', hmove, ?_⟩
  obtain ⟨⟨d₁, d₂, hsplit, hb', ho'⟩, hnil⟩ := move_induction
    (P := fun b' other' w' ↦ ∃ d₁ d₂, d = d₁ ++ d₂ ∧ b'.Holds w' (c ++ d₁) ∧ other'.Holds w' d₂)
    (fun s b other w b' other' w' _ _ hmoves ⟨d₁, d₂, hsplit, hb, ho⟩ ↦ by
      obtain ⟨d₃, d₄, rfl, -, hb', ho'⟩ := hb.movesFront ho hmoves
      refine ⟨d₁ ++ d₃, d₄, by rw [hsplit, List.append_assoc], ?_, ho'⟩
      rwa [← List.append_assoc])
    hb.wf ho.wf hmove ⟨[], d, rfl, by rwa [List.append_nil], ho⟩
  obtain rfl := ho'.eq_nil hnil
  rw [List.append_nil] at hsplit
  rw [hsplit]
  exact ⟨hb', ho'⟩

/-- The first `n` bytes are moved, as long as the size of the slice for the copied ones does not
wrap. -/
theorem Holds.moveLength {n : ℕ} (hb : b.Holds w c) (ho : other.Holds w d)
    (hfits : MoveFits b.room other.slices.toList n) :
    ∃ b' other' w', b.moveLength other n w = some (b', other', w') ∧
      b'.Holds w' (c ++ d.take n) ∧ other'.Holds w' (d.drop n) := by
  obtain ⟨⟨b', other', w'⟩, hmove⟩ :=
    Option.isSome_iff_exists.1 (moveLength_isSome_of_moveFits (w := w) hb.wf ho.wf hfits)
  refine ⟨b', other', w', hmove, ?_⟩
  -- `m` bytes are still to be moved.
  obtain ⟨m, ⟨d₁, d₂, hsplit, hcount, hb', ho'⟩, hend⟩ := moveLength_induction
    (P := fun m b' other' w' ↦ ∃ d₁ d₂, d = d₁ ++ d₂ ∧ d₁.length + m = n ∧
      b'.Holds w' (c ++ d₁) ∧ other'.Holds w' d₂)
    (fun s m b other w other' w' _ _ _ hdrops ⟨d₁, d₂, hsplit, hcount, hb, ho⟩ ↦
      ⟨d₁, d₂, hsplit, hcount, hb.congr hdrops.evolves.fragments, ho.dropsFront hdrops⟩)
    (fun s m b other w b' other' w' _ _ _ hmoves ⟨d₁, d₂, hsplit, hcount, hb, ho⟩ ↦ by
      obtain ⟨d₃, d₄, rfl, hlen, hb', ho'⟩ := hb.movesPart ho hmoves
      refine ⟨d₁ ++ d₃, d₄, by rw [hsplit, List.append_assoc], ?_, ?_, ho'⟩
      · rw [List.length_append, hlen, Nat.add_zero, hcount]
      · rwa [← List.append_assoc])
    (fun s m b other w b' other' w' _ _ _ hle hmoves ⟨d₁, d₂, hsplit, hcount, hb, ho⟩ ↦ by
      obtain ⟨d₃, d₄, rfl, hlen, hb', ho'⟩ := hb.movesFront ho hmoves
      refine ⟨d₁ ++ d₃, d₄, by rw [hsplit, List.append_assoc], ?_, ?_, ho'⟩
      · rw [List.length_append, hlen]
        omega
      · rwa [← List.append_assoc])
    hb.wf ho.wf hmove ⟨[], d, rfl, Nat.zero_add n, by rwa [List.append_nil], ho⟩
  have htake : d₁ = d.take n ∧ d₂ = d.drop n := by
    rcases hend with rfl | hnil
    · rw [Nat.add_zero] at hcount
      rw [hsplit, ← hcount, List.take_left, List.drop_left]
      exact ⟨rfl, rfl⟩
    · obtain rfl := ho'.eq_nil hnil
      rw [List.append_nil] at hsplit
      have hle : d.length ≤ n := by
        rw [hsplit]
        omega
      rw [List.take_of_length_le hle, List.drop_eq_nil_of_le hle]
      exact ⟨hsplit.symm, rfl⟩
  rw [← htake.1, ← htake.2]
  exact ⟨hb', ho'⟩

end OwnedImpl

end TcpServer.Buffer
