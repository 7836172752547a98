import TcpServer.Buffer.OwnedImpl
import TcpServer.Buffer.Evolution
import Mathlib.Data.List.Basic

/-!
# What the operations do to the slices

For each operation, one statement about the list of slices before and after it that says everything
the later files need; none of them unfolds an operation again.

* The operations that add at the end `Extend` the list: they fill the room behind the last slice and
  create slices behind it, in some order.
* `prepend` fills the room in front of the first slice and then creates slices in front of it
  (`prepend_spec`).
* A drain removes the slices `popped n l` and leaves `left n l`; both are functions of the list.
* A wholly moved slice is either coalesced into the last slice of the target or appended to it
  (`moveFront_cases`).

The relations `Extends`, `Precedes` and `Takes` are inductive, one constructor for each thing that a
loop of the source may do next. That a loop does such things and nothing else is shown once, by
induction over the loop; sizes, contents, well-formedness and the accounting (`Evolves`) then follow
by induction on the relation. The relations leave open how the data are spread over slices, since no
later result depends on it.
-/

namespace TcpServer.Buffer

variable {α : Type*}

/-- The slices of the buffer are well-formed. -/
def OwnedImpl.WF (b : OwnedImpl α) : Prop := ∀ s ∈ b.slices.toList, s.WF

/-- The total size of the data. -/
def dataSizes (l : List (Slice α)) : ℕ := (l.map Slice.dataSize).sum

/-- The data of the slices, one behind the other. -/
def contentOf (w : World α) (l : List (Slice α)) : List α := l.flatMap (·.bytes w)

@[simp] theorem dataSizes_nil : dataSizes ([] : List (Slice α)) = 0 := rfl

@[simp] theorem dataSizes_cons (s : Slice α) (l : List (Slice α)) :
    dataSizes (s :: l) = s.dataSize + dataSizes l := by
  simp [dataSizes]

@[simp] theorem dataSizes_append (l l' : List (Slice α)) :
    dataSizes (l ++ l') = dataSizes l + dataSizes l' := by
  simp [dataSizes]

@[simp] theorem contentOf_nil (w : World α) : contentOf w [] = [] := rfl

@[simp] theorem contentOf_cons (w : World α) (s : Slice α) (l : List (Slice α)) :
    contentOf w (s :: l) = s.bytes w ++ contentOf w l := rfl

@[simp] theorem contentOf_append (w : World α) (l l' : List (Slice α)) :
    contentOf w (l ++ l') = contentOf w l ++ contentOf w l' := by
  simp [contentOf]

/-- The content depends on the memory of the fragments only. -/
theorem contentOf_congr {w w' : World α} (h : w'.fragments = w.fragments) (l : List (Slice α)) :
    contentOf w' l = contentOf w l :=
  List.flatMap_congr fun _ _ ↦ Slice.bytes_congr h

/-- Well-formed slices have as many bytes as they say. -/
theorem length_contentOf (w : World α) {l : List (Slice α)} (hl : ∀ s ∈ l, s.WF) :
    (contentOf w l).length = dataSizes l := by
  induction l with
  | nil => rfl
  | cons s l ih =>
    rw [contentOf_cons, List.length_append, (hl s List.mem_cons_self).length_bytes,
      ih fun t ht ↦ hl t (List.mem_cons_of_mem s ht), dataSizes_cons]

/-! ### Adding at the end

What is added at the end may fill the room behind the last slice, then come in new slices. Which it
is depends on sizes, so the relation allows both.
-/

/-- Data placed behind a list of slices: in the room behind the last slice, or in new slices. The
memory of these is new or one of the storages `held` by a reservation. -/
inductive Extends (account : Option ℕ) : Multiset ℕ →
    List α → List (Slice α) → World α → List (Slice α) → World α → Prop
  | refl (l : List (Slice α)) (w : World α) : Extends account 0 [] l w l w
  | fill (l : List (Slice α)) {s s' : Slice α} {d : List α} (w : World α) :
    s.Appended d s' → Extends account 0 d (l ++ [s]) w (l ++ [s']) w
  | create (n : ℕ) (l : List (Slice α)) (w : World α) :
    Extends account 0 [] l w (l ++ [(Slice.create n account w).1]) (Slice.create n account w).2
  | adopt (storage : Storage α) {len usedSize : ℕ} (l : List (Slice α)) (w : World α) :
    storage.size = len → usedSize ≤ len →
      Extends account {storage.id} (Memory.read storage.mem 0 usedSize) l w
        (l ++ [(Slice.ofStorage storage len usedSize account w).1])
        (Slice.ofStorage storage len usedSize account w).2
  | trans {held held' : Multiset ℕ} {d d' : List α} {l l' l'' : List (Slice α)}
    {w w' w'' : World α} :
    Extends account held d l w l' w' → Extends account held' d' l' w' l'' w'' →
      Extends account (held + held') (d ++ d') l w l'' w''

namespace Extends

variable {account : Option ℕ} {held : Multiset ℕ} {d : List α} {l l' : List (Slice α)}
  {w w' : World α}

/-- The slices evolve: nothing is released, and what is new is accounted for. -/
theorem evolves (h : Extends account held d l w l' w') :
    Evolves (slicesOf l + (0, held)) w (slicesOf l') w' := by
  have hzero : ((0, 0) : Inventory α) = 0 := rfl
  induction h with
  | refl l w =>
    rw [hzero, add_zero]
    exact .refl _ _
  | fill l w hs =>
    rw [hzero, add_zero]
    exact (evolves_same hs.toSame hs.wf w).concat l
  | create n l w =>
    rw [slicesOf_append]
    exact (evolves_create n account w).frame (slicesOf l)
  | adopt storage l w hlen hused =>
    rw [slicesOf_append]
    exact (evolves_ofStorage storage hlen hused account w).frame (slicesOf l)
  | @trans held held' _ _ l _ _ w _ _ _ _ ih ih' =>
    have hsplit : slicesOf l + (0, held + held') = slicesOf l + (0, held) + (0, held') := by
      rw [add_assoc]
      simp
    rw [hsplit]
    exact (ih.frame_right _).trans ih'

theorem wf (h : Extends account held d l w l' w') (hl : ∀ s ∈ l, s.WF) : ∀ s ∈ l', s.WF :=
  fun s hs ↦ h.evolves.wf (fun t ht ↦ hl t (by simpa [slicesOf] using ht)) s hs

/-- The new content is the old one with the data behind it. -/
theorem contentOf (h : Extends account held d l w l' w') (v : World α) :
    contentOf v l' = Buffer.contentOf v l ++ d := by
  induction h with
  | refl l w => rw [List.append_nil]
  | fill l w hs => simp [hs.bytes]
  | create n l w => simp [(Slice.fresh_create n account w).bytes]
  | adopt storage l w _ hused => simp [Slice.ofStorage, Slice.bytes, Slice.load, Slice.dataSize]
  | trans _ _ ih ih' => rw [ih', ih, List.append_assoc]

theorem dataSizes (h : Extends account held d l w l' w') :
    dataSizes l' = Buffer.dataSizes l + d.length := by
  induction h with
  | refl l w => rfl
  | fill l w hs =>
    simp [hs.dataSize]
    omega
  | create n l w => simp [(Slice.fresh_create n account w).dataSize]
  | adopt storage l w _ hused => simp [Slice.ofStorage, Slice.dataSize]
  | trans _ _ ih ih' =>
    rw [ih', ih, List.length_append]
    omega

end Extends

/-- What adding `d` does to a buffer. -/
structure Adds (d : List α) (b : OwnedImpl α) (w : World α) (b' : OwnedImpl α) (w' : World α) :
    Prop where
  /-- The account of the buffer stays. -/
  account : b'.account = b.account
  /-- The length counts the data. -/
  length : b'.length = b.length + .ofNat d.length
  /-- The slices are extended by the data. -/
  slices : Extends b.account 0 d b.slices.toList w b'.slices.toList w'

namespace Adds

variable {d d' : List α} {b b' b'' : OwnedImpl α} {w w' w'' : World α}

theorem refl (b : OwnedImpl α) (w : World α) : Adds [] b w b w :=
  ⟨rfl, by simp, .refl _ _⟩

theorem trans (h : Adds d b w b' w') (h' : Adds d' b' w' b'' w'') : Adds (d ++ d') b w b'' w'' where
  account := h'.account.trans h.account
  length := by rw [h'.length, h.length, List.length_append, UInt64.ofNat_add, UInt64.add_assoc]
  slices := h.slices.trans (h.account ▸ h'.slices)

theorem evolves (h : Adds d b w b' w') :
    Evolves (slicesOf b.slices.toList) w (slicesOf b'.slices.toList) w' := by
  have := h.slices.evolves
  rwa [show ((0, 0) : Inventory α) = 0 from rfl, add_zero] at this

theorem wf (h : Adds d b w b' w') (hb : b.WF) : b'.WF := h.evolves.wf hb

end Adds

namespace OwnedImpl

variable {b b' : OwnedImpl α} {w w' : World α}

@[simp] theorem toList_emplaceBackSlice (b : OwnedImpl α) (n : ℕ) (w : World α) :
    (b.emplaceBackSlice n w).1.slices.toList =
      b.slices.toList ++ [(Slice.create n b.account w).1] :=
  SliceDeque.toList_emplaceBack _ _ (Slice.create n b.account w).2

theorem adds_emplaceBackSlice (b : OwnedImpl α) (n : ℕ) (w : World α) :
    Adds [] b w (b.emplaceBackSlice n w).1 (b.emplaceBackSlice n w).2 := by
  refine ⟨rfl, by simp [emplaceBackSlice], ?_⟩
  have h : Extends b.account 0 [] b.slices.toList w _ _ := .create n b.slices.toList w
  simpa [emplaceBackSlice] using h

/-- Writing to the last slice through `back()`. With no slice at all there is nothing to write
to. -/
theorem append_back (hb : b.WF) (d : List α) (w : World α) :
    ∃ back, b.slices.back.append d w = (min d.length b.slices.back.reservableSize, back, w) ∧
      Extends b.account 0 (d.take (min d.length b.slices.back.reservableSize)) b.slices.toList w
        (b.slices.setBack back).toList w := by
  rcases List.eq_nil_or_concat' b.slices.toList with hnil | ⟨l, s, hl⟩
  · have hback : b.slices.back = .empty := by
      rw [SliceDeque.back_eq, hnil]
      rfl
    refine ⟨.empty, ?_, ?_⟩
    · rw [hback]
      simp [Slice.append, Slice.reservableSize, Slice.empty]
    · have hzero : min d.length b.slices.back.reservableSize = 0 := by
        rw [hback]
        exact Nat.min_zero _
      rw [hzero, List.take_zero, SliceDeque.setBack_of_nil hnil]
      exact .refl _ _
  · have hs : s.WF := hb s (by simp [hl])
    rw [SliceDeque.back_of_concat hl]
    obtain ⟨s', happend, hs'⟩ := hs.append_spec d w
    refine ⟨s', happend, ?_⟩
    rw [SliceDeque.setBack_of_concat hl, hl]
    exact .fill l w hs'

/-- Each turn of the loop of `add` places a part of the data, so the loop places all. -/
theorem addImplLoop_spec {fuel : ℕ} {new : Bool} {d : List α} (hb : b.WF)
    (h : addImplLoop fuel new d b w = some (b', w')) : Adds d b w b' w' := by
  induction fuel generalizing new d b w with
  | zero =>
    cases d with
    | nil =>
      obtain ⟨rfl, rfl⟩ := Prod.mk.inj (Option.some.inj h)
      exact .refl b w
    | cons x xs => cases h
  | succ fuel ih =>
    cases d with
    | nil =>
      obtain ⟨rfl, rfl⟩ := Prod.mk.inj (Option.some.inj h)
      exact .refl b w
    | cons x xs =>
      rw [addImplLoop] at h
      -- One iteration: perhaps a new slice, then as much as fits into the last one.
      obtain ⟨b₁, w₁, hnew, hadds⟩ : ∃ b₁ w₁,
          (if new then b.emplaceBackSlice (x :: xs).length w else (b, w)) = (b₁, w₁) ∧
            Adds [] b w b₁ w₁ := by
        cases new with
        | true => exact ⟨_, _, rfl, b.adds_emplaceBackSlice _ w⟩
        | false => exact ⟨b, w, rfl, .refl b w⟩
      rw [hnew] at h
      dsimp only at h
      have hb₁ := hadds.wf hb
      obtain ⟨back, happend, hext⟩ := append_back hb₁ (x :: xs) w₁
      rw [happend] at h
      dsimp only at h
      have hfill : Adds ((x :: xs).take (min (x :: xs).length b₁.slices.back.reservableSize)) b₁ w₁
          { b₁ with
            slices := b₁.slices.setBack back
            length := b₁.length + .ofNat (min (x :: xs).length b₁.slices.back.reservableSize) }
              w₁ :=
        ⟨rfl, by rw [List.length_take, Nat.min_eq_left (Nat.min_le_left _ _)], hext⟩
      have hrest := ih (hfill.wf hb₁) h
      have := (hadds.trans hfill).trans hrest
      rwa [List.nil_append, List.take_append_drop] at this

/-- `add` places the data behind the buffer, if it returns. -/
theorem addImpl_spec {d : List α} (hb : b.WF) (h : b.addImpl d w = some (b', w')) :
    Adds d b w b' w' :=
  addImplLoop_spec hb h

/-- Several strings are placed one after another. -/
theorem addEach_spec {ds : List (List α)} (hb : b.WF) (h : addEach ds b w = some (b', w')) :
    Adds ds.flatten b w b' w' := by
  induction ds generalizing b w with
  | nil =>
    obtain ⟨rfl, rfl⟩ := Prod.mk.inj (Option.some.inj h)
    exact .refl b w
  | cons d ds ih =>
    obtain ⟨⟨b₁, w₁⟩, hd, hrest⟩ := Option.bind_eq_some_iff.1 h
    have hadds := addImpl_spec hb hd
    exact hadds.trans (ih (hadds.wf hb) hrest)

/-- Data that fits behind the last slice goes there. -/
theorem addImpl_of_fits {l : List (Slice α)} {s : Slice α} (hb : b.WF)
    (hl : b.slices.toList = l ++ [s]) {d : List α} (hd : d.length ≤ s.reservableSize)
    (w : World α) :
    ∃ b' s', b.addImpl d w = some (b', w) ∧ s.Appended d s' ∧ b'.slices.toList = l ++ [s'] ∧
      b'.account = b.account ∧ b'.length = b.length + .ofNat d.length := by
  have hs : s.WF := hb s (by simp [hl])
  cases d with
  | nil =>
    refine ⟨b, s, rfl, ?_, hl, rfl, by simp⟩
    exact { Slice.Same.refl s with wf := hs, reservable := rfl, dataSize := rfl, bytes := by simp }
  | cons x xs =>
    have hempty : b.slices.isEmpty = false := by
      rw [← Bool.not_eq_true, SliceDeque.isEmpty_iff, hl]
      simp
    obtain ⟨s', happend, hs'⟩ := hs.append_spec (x :: xs) w
    rw [Nat.min_eq_left hd, List.take_length] at hs'
    rw [Nat.min_eq_left hd] at happend
    refine ⟨{ b with slices := b.slices.setBack s', length := b.length + .ofNat (x :: xs).length },
      s', ?_, hs', SliceDeque.setBack_of_concat hl s', rfl, rfl⟩
    rw [addImpl, hempty, addImplLoop]
    simp only [Bool.false_eq_true, if_false, SliceDeque.back_of_concat hl, happend,
      List.drop_length]
    cases xs <;> rfl

/-- Bytes copied into a slice's own memory are where the copying started. -/
theorem copyFragments_owned {s : Slice α} {st : Storage α} (hs : s.backing = .owned st)
    (fragments : List (List α)) (mem : ℕ) (w : World α) :
    copyFragments fragments mem s w =
      ({ s with backing := .owned { st with mem := Memory.write st.mem mem fragments.flatten } },
        w) := by
  induction fragments generalizing s st mem with
  | nil =>
    rcases s with ⟨capacity, backing, data, reservable, drainTrackers, account⟩
    obtain rfl : backing = .owned st := hs
    simp [copyFragments]
  | cons f fragments ih =>
    rw [copyFragments, Slice.store, hs]
    dsimp only
    rw [ih rfl, List.flatten_cons, Memory.write_append]

theorem copyFragments_of_flatten_eq_nil {fragments : List (List α)} (h : fragments.flatten = [])
    (mem : ℕ) (s : Slice α) (w : World α) : copyFragments fragments mem s w = (s, w) := by
  induction fragments generalizing mem with
  | nil => rfl
  | cons f fragments ih =>
    rw [List.flatten_cons, List.append_eq_nil_iff] at h
    obtain ⟨rfl, h⟩ := h
    rw [copyFragments, Slice.store_nil]
    exact ih h _

/-- The fast path of `addFragments`: what is copied behind the last slice and committed. -/
theorem appended_copyFragments {s : Slice α} (hs : s.WF) {fragments : List (List α)}
    (hlen : (s.reserve fragments.flatten.length).len = fragments.flatten.length) (w : World α) :
    ∃ s', copyFragments fragments s.reservable s w = (s', w) ∧
      s.Appended fragments.flatten
        (s'.commit false (s.reserve fragments.flatten.length)).1 := by
  rcases eq_or_ne fragments.flatten [] with hnil | hne
  · refine ⟨s, copyFragments_of_flatten_eq_nil hnil _ _ _, ?_⟩
    rw [hnil]
    have hcommit : (s.commit false (s.reserve ([] : List α).length)).1 = s := by
      simp [Slice.commit, Slice.reserve]
    rw [hcommit]
    exact { Slice.Same.refl s with wf := hs, reservable := rfl, dataSize := rfl, bytes := by simp }
  · have hpos : 0 < fragments.flatten.length := List.length_pos_of_ne_nil hne
    have hroom : fragments.flatten.length ≤ s.reservableSize := by
      rw [Slice.reserve, if_neg (by omega)] at hlen
      split_ifs at hlen with h0
      · exact absurd hlen.symm (by dsimp only; omega)
      · rw [Slice.reservableSize]
        dsimp only at hlen
        omega
    obtain ⟨st, hst⟩ := hs.owned_of_reservableSize (by omega)
    refine ⟨_, copyFragments_owned hst _ _ _, ?_⟩
    have := hs.appended { st with mem := Memory.write st.mem s.reservable fragments.flatten } hst
      rfl rfl hroom (fun n hn ↦ Memory.read_write_of_le _ _ hn) (Memory.read_write_self _ _ _)
    rw [Slice.commit, if_neg (by simp), hlen]
    exact this

/-- `addFragments` places the strings behind the buffer, one after another. -/
theorem addFragments_spec {fragments : List (List α)} {n : ℕ} (hb : b.WF)
    (hsum : (fragments.map List.length).sum < 2 ^ 64)
    (h : b.addFragments fragments w = some (n, b', w')) : Adds fragments.flatten b w b' w' := by
  have htotal : (fragments.map List.length).sum % 2 ^ 64 = fragments.flatten.length := by
    rw [List.length_flatten, Nat.mod_eq_of_lt hsum]
  rw [addFragments] at h
  dsimp only at h
  rw [htotal] at h
  -- before the strings are placed the buffer has a last slice, if need be a new one
  obtain ⟨b₁, w₁, hnew, hadds, hne⟩ : ∃ b₁ w₁,
      (if b.slices.isEmpty then b.emplaceBackSlice fragments.flatten.length w else (b, w)) =
        (b₁, w₁) ∧ Adds [] b w b₁ w₁ ∧ b₁.slices.toList ≠ [] := by
    cases hempty : b.slices.isEmpty with
    | true =>
      refine ⟨(b.emplaceBackSlice fragments.flatten.length w).1,
        (b.emplaceBackSlice fragments.flatten.length w).2, rfl, b.adds_emplaceBackSlice _ w, ?_⟩
      rw [toList_emplaceBackSlice]
      exact List.append_ne_nil_of_right_ne_nil _ (List.cons_ne_nil _ _)
    | false =>
      exact ⟨b, w, rfl, .refl b w, fun hnil ↦ by simp [SliceDeque.isEmpty_iff.2 hnil] at hempty⟩
  rw [hnew] at h
  dsimp only at h
  have hb₁ := hadds.wf hb
  split_ifs at h with hlen
  · obtain ⟨l, s, hl⟩ := (List.eq_nil_or_concat' b₁.slices.toList).resolve_left hne
    rw [SliceDeque.back_of_concat hl] at h hlen
    obtain ⟨s', hcopy, hs'⟩ := appended_copyFragments (hb₁ s (by simp [hl])) hlen w₁
    rw [hcopy] at h
    simp only [Option.some.injEq, Prod.mk.injEq] at h
    obtain ⟨-, rfl, rfl⟩ := h
    refine hadds.trans (d := []) ⟨rfl, rfl, ?_⟩
    rw [SliceDeque.setBack_of_concat hl, hl]
    exact .fill l w₁ hs'
  -- they do not all fit into that slice, so they are added one by one
  · obtain ⟨⟨b₂, w₂⟩, heach, heq⟩ := Option.map_eq_some_iff.1 h
    obtain ⟨-, rfl, rfl⟩ : _ ∧ b₂ = b' ∧ w₂ = w' := by simpa using heq
    exact hadds.trans (addEach_spec hb₁ heach)

/-- `appendSliceForTest` copies what the new slice can take, and counts all. -/
theorem appendSliceForTest_spec (hb : b.WF) (d : List α) (w : World α) :
    (b.appendSliceForTest d w).1.account = b.account ∧
      (b.appendSliceForTest d w).1.length = b.length + .ofNat d.length ∧
      Extends b.account 0 (d.take (min d.length (sliceSize d.length))) b.slices.toList w
        (b.appendSliceForTest d w).1.slices.toList (b.appendSliceForTest d w).2 := by
  have hfresh := Slice.fresh_create d.length b.account w
  have hl := b.toList_emplaceBackSlice d.length w
  have hadds := b.adds_emplaceBackSlice d.length w
  obtain ⟨s', happend, hext⟩ := append_back (hadds.wf hb) d (b.emplaceBackSlice d.length w).2
  rw [SliceDeque.back_of_concat hl, Slice.reservableSize, hfresh.capacity, hfresh.reservable,
    Nat.sub_zero] at happend hext
  rw [appendSliceForTest]
  dsimp only
  rw [SliceDeque.back_of_concat hl, happend]
  exact ⟨rfl, rfl, hadds.slices.trans (hadds.account ▸ hext)⟩

theorem appendSliceForTest_evolves (hb : b.WF) (d : List α) (w : World α) :
    Evolves (slicesOf b.slices.toList) w (slicesOf (b.appendSliceForTest d w).1.slices.toList)
      (b.appendSliceForTest d w).2 := by
  have := (appendSliceForTest_spec hb d w).2.2.evolves
  rwa [show ((0, 0) : Inventory α) = 0 from rfl, add_zero] at this

theorem toList_addBufferFragment (b : OwnedImpl α) (fragment : BufferFragment) (w : World α) :
    (b.addBufferFragment fragment w).1.slices.toList =
      b.slices.toList ++ [.ofFragment fragment] := by
  simp [addBufferFragment]

/-- A fragment comes with the obligation to call its `done()`. -/
theorem addBufferFragment_evolves (b : OwnedImpl α) (fragment : BufferFragment) (w : World α) :
    Evolves (slicesOf b.slices.toList + slicesOf [.carrying (.done fragment.id)]) w
      (slicesOf (b.addBufferFragment fragment w).1.slices.toList)
      (b.addBufferFragment fragment w).2 := by
  have hworld : (b.addBufferFragment fragment w).2 = w := by
    simp [addBufferFragment]
  rw [toList_addBufferFragment, slicesOf_append, hworld]
  exact (evolves_ofFragment fragment w).frame (slicesOf b.slices.toList)

/-- A tracker goes to the last slice. -/
theorem addDrainTracker_spec {t : DrainTracker} (h : b.addDrainTracker t = some b') :
    ∃ l s, b.slices.toList = l ++ [s] ∧ b'.slices.toList = l ++ [s.addDrainTracker t] ∧
      b'.account = b.account ∧ b'.length = b.length := by
  rw [addDrainTracker] at h
  split_ifs at h with hempty
  obtain rfl := Option.some.inj h
  obtain ⟨l, s, hl⟩ := (List.eq_nil_or_concat' b.slices.toList).resolve_left
    fun hnil ↦ hempty (SliceDeque.isEmpty_iff.2 hnil)
  refine ⟨l, s, hl, ?_, rfl, rfl⟩
  rw [SliceDeque.back_of_concat hl]
  exact SliceDeque.setBack_of_concat hl _

theorem addDrainTracker_evolves {t : DrainTracker} (h : b.addDrainTracker t = some b')
    (w : World α) :
    Evolves (slicesOf b.slices.toList + slicesOf [.carrying t]) w (slicesOf b'.slices.toList)
      w := by
  obtain ⟨l, s, hl, hl', -, -⟩ := addDrainTracker_spec h
  rw [hl, hl', slicesOf_append, slicesOf_append, add_assoc, ← slicesOf_append]
  exact (evolves_addDrainTracker s t w).frame (slicesOf l)

end OwnedImpl

/-! ### Adding in front

Data go in front from the back: the last bytes first, into the room before the first slice or into a
new slice, and so on until none are left.
-/

/-- `s'` is a slice that was created with no data and then given `d`. -/
structure Filled (s : Slice α) (d : List α) (s' : Slice α) : Prop extends s.Same s' where
  /-- It is well-formed. -/
  wf : s'.WF
  /-- It has the data and nothing else. -/
  dataSize : s'.dataSize = d.length
  /-- Its bytes are the data. -/
  bytes : ∀ w, s'.bytes w = d

/-- Data placed in new slices in front of a list of slices. -/
inductive Precedes (account : Option ℕ) :
    List α → List (Slice α) → World α → List (Slice α) → World α → Prop
  | refl (l : List (Slice α)) (w : World α) : Precedes account [] l w l w
  | create (n : ℕ) (l : List (Slice α)) (w : World α) {s' : Slice α} {d : List α} :
    Filled (Slice.create n account w).1 d s' →
      Precedes account d l w (s' :: l) (Slice.create n account w).2
  | trans {d d' : List α} {l l' l'' : List (Slice α)} {w w' w'' : World α} :
    Precedes account d l w l' w' → Precedes account d' l' w' l'' w'' →
      Precedes account (d' ++ d) l w l'' w''

namespace Precedes

variable {account : Option ℕ} {d : List α} {l l' : List (Slice α)} {w w' : World α}

theorem evolves (h : Precedes account d l w l' w') :
    Evolves (slicesOf l) w (slicesOf l') w' := by
  induction h with
  | refl l w => exact .refl _ _
  | create n l w hs =>
    have := (evolves_create n account w).trans (evolves_same hs.toSame hs.wf _)
    rw [slicesOf_cons]
    simpa using this.frame_right (slicesOf l)
  | trans _ _ ih ih' => exact ih.trans ih'

/-- The new content is the data with the old one behind it. -/
theorem contentOf (h : Precedes account d l w l' w') (v : World α) :
    contentOf v l' = d ++ Buffer.contentOf v l := by
  induction h with
  | refl l w => rw [List.nil_append]
  | create n l w hs => rw [contentOf_cons, hs.bytes]
  | trans _ _ ih ih' => rw [ih', ih, List.append_assoc]

theorem dataSizes (h : Precedes account d l w l' w') :
    dataSizes l' = Buffer.dataSizes l + d.length := by
  induction h with
  | refl l w => rfl
  | create n l w hs => rw [dataSizes_cons, hs.dataSize, Nat.add_comm]
  | trans _ _ ih ih' =>
    rw [ih', ih, List.length_append]
    omega

end Precedes

/-- What putting `d` in new slices in front does to a buffer. -/
structure Prepends (d : List α) (b : OwnedImpl α) (w : World α) (b' : OwnedImpl α) (w' : World α) :
    Prop where
  /-- The account of the buffer stays. -/
  account : b'.account = b.account
  /-- The length counts the data. -/
  length : b'.length = b.length + .ofNat d.length
  /-- New slices with the data precede the others. -/
  slices : Precedes b.account d b.slices.toList w b'.slices.toList w'

namespace OwnedImpl

variable {b b' : OwnedImpl α} {w w' : World α}

@[simp] theorem toList_emplaceFrontSlice (b : OwnedImpl α) (n : ℕ) (w : World α) :
    (b.emplaceFrontSlice n w).1.slices.toList =
      (Slice.create n b.account w).1 :: b.slices.toList :=
  SliceDeque.toList_emplaceFront _ _ (Slice.create n b.account w).2

@[simp] theorem emplaceFrontSlice_snd (b : OwnedImpl α) (n : ℕ) (w : World α) :
    (b.emplaceFrontSlice n w).2 = (Slice.create n b.account w).2 := by
  simp [emplaceFrontSlice]

/-- A new slice in front, and what it takes of `d`. -/
theorem prepend_create {d : List α} (hd : d ≠ []) (n : ℕ) (account : Option ℕ) (w : World α) :
    ∃ s', (Slice.create n account w).1.prepend d (Slice.create n account w).2 =
        (min d.length (sliceSize n), s', (Slice.create n account w).2) ∧
      Filled (Slice.create n account w).1 (d.drop (d.length - min d.length (sliceSize n))) s' := by
  have hfresh := Slice.fresh_create n account w
  obtain ⟨s', w', hprepend, hs', -, hw⟩ :=
    hfresh.wf.prepend_spec hd (Slice.create n account w).2
  rw [Slice.prependSize, if_pos hfresh.dataSize, hfresh.capacity] at hprepend hs'
  obtain rfl := hw (by rintro f ⟨⟩)
  refine ⟨s', hprepend, hs'.toSame, hs'.wf, by rw [hs'.dataSize, hfresh.dataSize, Nat.zero_add],
    fun v ↦ ?_⟩
  have howned : s'.isMutable = true := (Slice.isMutable_eq_of_base hs'.base).trans hfresh.owned
  have := hs'.bytes
  rw [hfresh.bytes, List.append_nil] at this
  rw [← this]
  exact Slice.load_of_isMutable howned _ _ _ _

/-- Each turn of the loop of `prepend` places the end of the data, so the loop places all. -/
theorem prependLoop_spec {fuel : ℕ} {d : List α} (h : prependLoop fuel true d b w = some (b', w')) :
    Prepends d b w b' w' := by
  induction fuel generalizing d b w with
  | zero =>
    cases d with
    | nil =>
      obtain ⟨rfl, rfl⟩ := Prod.mk.inj (Option.some.inj h)
      exact ⟨rfl, by simp, .refl _ _⟩
    | cons x xs => cases h
  | succ fuel ih =>
    cases d with
    | nil =>
      obtain ⟨rfl, rfl⟩ := Prod.mk.inj (Option.some.inj h)
      exact ⟨rfl, by simp, .refl _ _⟩
    | cons x xs =>
      obtain ⟨s', hprepend, hs'⟩ :=
        prepend_create (List.cons_ne_nil x xs) (x :: xs).length b.account w
      have hl := b.toList_emplaceFrontSlice (x :: xs).length w
      rw [prependLoop] at h
      simp only [if_true, SliceDeque.front_of_cons hl, emplaceFrontSlice_snd, hprepend] at h
      have hrest := ih h
      refine ⟨hrest.account, ?_, ?_⟩
      · rw [hrest.length]
        show b.length + _ + _ = _
        rw [UInt64.add_assoc, ← UInt64.ofNat_add, List.length_take]
        congr 2
        omega
      · have hslices := hrest.slices
        rw [SliceDeque.setFront_of_cons hl] at hslices
        have := (Precedes.create (x :: xs).length b.slices.toList w hs').trans hslices
        rwa [List.take_append_drop] at this

/-- `prepend` fills the room in front of the first slice and puts the rest in new slices. It can
write to the memory of a fragment only if that slice is over one and has been drained in part. -/
theorem prepend_spec {d : List α} (hb : b.WF) (h : b.prepend d w = some (b', w')) :
    (b.slices.toList = [] ∧ Prepends d b w b' w') ∨
      ∃ s l s' w₁ d₁ d₂, b.slices.toList = s :: l ∧ d = d₂ ++ d₁ ∧ s.Prepended d₁ w s' w₁ ∧
        s.Overwrites d w w₁ ∧
        ((∀ f, s.base = some (.fragment f) → s.dataSize = 0 ∨ s.data = 0 ∨ d = []) → w₁ = w) ∧
        b'.account = b.account ∧ b'.length = b.length + .ofNat d.length ∧
        Precedes b.account d₂ (s' :: l) w₁ b'.slices.toList w' := by
  rw [prepend] at h
  cases hempty : b.slices.isEmpty with
  | true =>
    rw [hempty] at h
    exact .inl ⟨SliceDeque.isEmpty_iff.1 hempty, prependLoop_spec h⟩
  | false =>
    obtain ⟨s, l, hl⟩ : ∃ s l, b.slices.toList = s :: l :=
      List.exists_cons_of_ne_nil fun hnil ↦ by simp [SliceDeque.isEmpty_iff.2 hnil] at hempty
    have hs : s.WF := hb s (by simp [hl])
    rw [hempty] at h
    refine .inr ?_
    cases d with
    | nil =>
      obtain ⟨rfl, rfl⟩ := Prod.mk.inj (Option.some.inj h)
      refine ⟨s, l, s, w, [], [], hl, rfl, ?_, s.overwrites_refl _ _, fun _ ↦ rfl, rfl, by simp, ?_⟩
      · exact { Slice.Same.refl s with wf := hs, dataSize := rfl, bytes := rfl }
      · rw [hl]
        exact .refl _ _
    | cons x xs =>
      obtain ⟨s', w₁, hprepend, hs', hover, hw⟩ := hs.prepend_spec (List.cons_ne_nil x xs) w
      rw [List.length_cons, prependLoop] at h
      simp only [Bool.false_eq_true, if_false, SliceDeque.front_of_cons hl, hprepend] at h
      have hle : s.prependSize (x :: xs).length ≤ (x :: xs).length := by
        rw [Slice.prependSize]
        split_ifs <;> exact Nat.min_le_left _ _
      -- only the first turn uses a slice of the buffer; every later one makes a new slice
      have hrest := prependLoop_spec h
      refine ⟨s, l, s', w₁, _, _, hl, (List.take_append_drop _ _).symm, hs', hover, fun hf ↦ ?_,
        hrest.account, ?_, ?_⟩
      · exact hw fun f hf' ↦ by simpa using hf f hf'
      · rw [hrest.length]
        show b.length + _ + _ = _
        rw [UInt64.add_assoc, ← UInt64.ofNat_add, List.length_take]
        congr 2
        omega
      · have hslices := hrest.slices
        rwa [SliceDeque.setFront_of_cons hl] at hslices

/-- Apart from the memory of the fragment under the first slice, `prepend` is an evolution. -/
theorem prepend_evolves {d : List α} (hb : b.WF) (h : b.prepend d w = some (b', w')) :
    Evolves (slicesOf b.slices.toList) { w with fragments := w'.fragments }
      (slicesOf b'.slices.toList) w' := by
  rcases prepend_spec hb h with ⟨-, hnew⟩ |
    ⟨s, l, s', w₁, d₁, d₂, hl, -, hs', hover, -, -, -, hnew⟩
  · exact hnew.slices.evolves.upToFragments
  · have hfront := (evolves_same hs'.toSame hs'.wf { w with fragments := w'.fragments }).cons l
    have hw₁ : w₁ = { w with fragments := w'.fragments } := by
      rw [hnew.evolves.fragments]
      exact hover.eq
    rw [hl]
    exact hfront.trans (hw₁ ▸ hnew.evolves)

/-- Data for which one slice is enough are placed. -/
theorem prependLoop_isSome {fuel : ℕ} {d : List α} (hd : d.length ≤ maxSliceSize) :
    (prependLoop (fuel + 1) true d b w).isSome := by
  cases d with
  | nil => rfl
  | cons x xs =>
    obtain ⟨s', hprepend, -⟩ :=
      prepend_create (List.cons_ne_nil x xs) (x :: xs).length b.account w
    rw [Nat.min_eq_left (le_sliceSize hd)] at hprepend
    rw [prependLoop]
    simp only [if_true, SliceDeque.front_of_cons (b.toList_emplaceFrontSlice (x :: xs).length w),
      emplaceFrontSlice_snd, hprepend, Nat.sub_self, List.take_zero]
    cases fuel <;> rfl

end OwnedImpl

end TcpServer.Buffer
