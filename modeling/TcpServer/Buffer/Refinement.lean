import TcpServer.Buffer.Accounting
import TcpServer.Buffer.Commit
import TcpServer.Buffer.Contents
import TcpServer.Buffer.FragmentMemory
import Mathlib.Algebra.Order.BigOperators.Group.Finset

/-!
# Buffers refine byte strings

`Strings` is what the buffers are for: a byte string for each buffer, and the byte strings that were
extracted. `Strings.Step` says what the calls mean for them. Only `extractMutableFrontSlice` leaves
something open, the length of the prefix that it removes.

* `ReadsAs` is the relation between the two: what can be read from a buffer, and the numbers that it
  keeps, say that it holds its byte string.
* `Pool.refines_strings` matches every run of the buffers by a run of the byte strings. It is a
  statement about the runs that fit (`Op.Fits`): past `maxSliceSize`, `sliceSize` wraps, and then
  `appendSliceForTest` counts bytes that it does not keep (`oversized_append_loses_bytes`).

A fragment is read from memory that does not belong to the buffer, and `prepend` may write to it. No
other slice notices, because no other slice is over the same fragment (`Matches.fragment_alone`).

The relation between the two states during a run, `Matches`, says more than `ReadsAs`: it knows
which fragments have been handed in and that the extracted slices own their bytes, and it is what
the step lemma keeps. Everything that can be read from a buffer follows from the byte string that it
holds.
-/

namespace TcpServer.Buffer

variable {α : Type*}

/-! ### Byte strings

The meaning of the calls needs neither slices nor sizes. It is a relation, because the extraction of
a slice removes a prefix that is not empty and of a length that is not said.
-/

/-- Byte strings in place of buffers. -/
structure Strings (ι α : Type*) where
  /-- The byte string of each buffer. -/
  content : ι → List α := fun _ ↦ []
  /-- The byte strings that were extracted. -/
  extracted : List (List α) := []

namespace Strings

variable {ι κ : Type*} [DecidableEq ι]

/-- A buffer has another byte string. -/
def set (s : Strings ι α) (i : ι) (c : List α) : Strings ι α :=
  { s with content := Function.update s.content i c }

@[simp] theorem content_set_self (s : Strings ι α) (i : ι) (c : List α) :
    (s.set i c).content i = c := by
  simp [set]

theorem content_set_of_ne (s : Strings ι α) {i j : ι} (h : j ≠ i) (c : List α) :
    (s.set i c).content j = s.content j := by
  simp [set, h]

/-- What a call means for byte strings. The bytes of a fragment are those that the caller handed
in. -/
inductive Step (fragments : ℕ → ℕ → α) : Op ι κ α → Strings ι α → Strings ι α → Prop
  | add (i : ι) (data : List α) (s : Strings ι α) :
    Step fragments (.add i data) s (s.set i (s.content i ++ data))
  | addInstance (i j : ι) (s : Strings ι α) :
    Step fragments (.addInstance i j) s (s.set i (s.content i ++ s.content j))
  | addBufferFragment (i : ι) (fragment : BufferFragment) (s : Strings ι α) :
    Step fragments (.addBufferFragment i fragment) s
      (s.set i (s.content i ++ Memory.read (fragments fragment.id) 0 fragment.size))
  | addFragments (i : ι) (strings : List (List α)) (s : Strings ι α) :
    Step fragments (.addFragments i strings) s (s.set i (s.content i ++ strings.flatten))
  | appendSliceForTest (i : ι) (data : List α) (s : Strings ι α) :
    Step fragments (.appendSliceForTest i data) s (s.set i (s.content i ++ data))
  | prepend (i : ι) (data : List α) (s : Strings ι α) :
    Step fragments (.prepend i data) s (s.set i (data ++ s.content i))
  | prependInstance (i j : ι) (s : Strings ι α) :
    Step fragments (.prependInstance i j) s ((s.set i (s.content j ++ s.content i)).set j [])
  | drain (i : ι) (n : ℕ) (s : Strings ι α) :
    Step fragments (.drain i n) s (s.set i ((s.content i).drop n))
  | move (i j : ι) (s : Strings ι α) :
    Step fragments (.move i j) s ((s.set i (s.content i ++ s.content j)).set j [])
  | moveLength (i j : ι) (n : ℕ) (s : Strings ι α) :
    Step fragments (.moveLength i j n) s
      ((s.set i (s.content i ++ (s.content j).take n)).set j ((s.content j).drop n))
  | linearize (i : ι) (n : ℕ) (s : Strings ι α) : Step fragments (.linearize i n) s s
  | extractMutableFrontSlice (i : ι) (front rest : List α) (s : Strings ι α) :
    front ≠ [] → s.content i = front ++ rest →
      Step fragments (.extractMutableFrontSlice i) s
        { s.set i rest with extracted := front :: s.extracted }

end Strings

/-! ### The relation

What can be seen of a buffer is its byte string, in every way of looking at it. For the length this
needs the byte string to have fewer than `2 ^ 64` bytes, which is a condition on the calls.
-/

/-- The calls that are compared with those on byte strings, and how they may be used: no buffer is
handed to itself, and no buffer comes to hold `2 ^ 64` bytes. -/
def Op.Allowed {ι κ : Type*} (st : Pool ι κ α) : Op ι κ α → Prop
  | .add i data | .appendSliceForTest i data | .prepend i data =>
    (st.content i).length + data.length < 2 ^ 64
  | .addInstance i j | .prependInstance i j | .move i j =>
    i ≠ j ∧ (st.content i).length + (st.content j).length < 2 ^ 64
  | .addBufferFragment i fragment => (st.content i).length + fragment.size < 2 ^ 64
  | .addFragments i strings =>
    (st.content i).length + (strings.map List.length).sum < 2 ^ 64
  | .drain _ _ => True
  | .moveLength i j n => i ≠ j ∧ (st.content i).length + min n (st.content j).length < 2 ^ 64
  | .linearize i n => n < 2 ^ 32 ∧ n ≤ (st.buffers i).length.toNat
  | .extractMutableFrontSlice i => (st.buffers i).length ≠ 0
  | _ => False

instance {ι κ : Type*} [DecidableEq ι] (st : Pool ι κ α) :
    ∀ op : Op ι κ α, Decidable (op.Allowed st)
  | .add .. | .appendSliceForTest .. | .prepend .. | .addBufferFragment .. | .addFragments .. =>
    inferInstanceAs (Decidable (_ < _))
  | .addInstance .. | .prependInstance .. | .move .. | .moveLength .. | .linearize .. =>
    inferInstanceAs (Decidable (_ ∧ _))
  | .drain .. => inferInstanceAs (Decidable True)
  | .extractMutableFrontSlice _ => inferInstanceAs (Decidable (_ ≠ _))
  | .addDrainTracker .. | .bindAccount .. | .reserveForRead .. | .reserveWithMaxLength ..
  | .reserveSingleSlice .. | .write .. | .commit .. | .dropReservation _ | .destroySliceData _
  | .destroy _ =>
    inferInstanceAs (Decidable False)

/-- Each buffer is its byte string, for everything that can be asked of it. -/
structure ReadsAs [DecidableEq α] {ι κ : Type*} (st : Pool ι κ α) (s : Strings ι α) : Prop where
  /-- Its slices hold the string. -/
  content : ∀ i, st.content i = s.content i
  /-- It says how long the string is. -/
  length : ∀ i, (st.buffers i).length.toNat = (s.content i).length
  /-- Its slices are well-formed, and an empty one starts at the beginning of its memory. -/
  offsets : ∀ i, ∀ slice ∈ (st.buffers i).slices.toList,
    slice.data ≤ slice.reservable ∧ slice.reservable ≤ slice.capacity ∧
      (slice.dataSize = 0 → slice.data = 0)
  /-- `toString` gives the string. -/
  toString : ∀ i, (st.buffers i).toString st.world = s.content i
  /-- The raw slices have data, and hold the string or the beginning of it. -/
  getRawSlices : ∀ i maxSlices,
    (∀ slice ∈ (st.buffers i).getRawSlices maxSlices, slice.len ≠ 0) ∧
      contentOf st.world ((st.buffers i).rawSlicesOf maxSlices) <+: s.content i
  /-- All of them hold all of it. -/
  getRawSlicesData : ∀ i, ((st.buffers i).getRawSlicesData st.world).flatten = s.content i
  /-- Any part of the string can be copied out. -/
  copyOut : ∀ i start size, start + size ≤ (s.content i).length →
    (st.buffers i).copyOut start size st.world = ((s.content i).drop start).take size
  /-- `startsWith` compares with the string. -/
  startsWith : ∀ i data, (st.buffers i).startsWith data st.world = true ↔ data <+: s.content i
  /-- What was extracted are the strings that were taken off. -/
  extracted : st.extracted.map (·.bytes st.world) = s.extracted

/-- What relates the states of both after `ops`. A fragment that has not been handed in is as it
was. -/
structure Matches {ι κ : Type*} (fragments : ℕ → ℕ → α) (ops : List (Op ι κ α)) (st : Pool ι κ α)
    (s : Strings ι α) : Prop where
  /-- Each buffer holds its string. -/
  holds : ∀ i, (st.buffers i).Holds st.world (s.content i)
  /-- The strings can be counted by a `size_t`. -/
  bounded : ∀ i, (s.content i).length < 2 ^ 64
  /-- Fragments that were not handed in are as they were. -/
  untouched : ∀ f, .done f ∉ Pool.registrations ops → st.world.fragments f = fragments f
  /-- The extracted slices have the extracted strings. -/
  extracted : st.extracted.map (·.bytes st.world) = s.extracted
  /-- They own their memory. -/
  owned : ∀ slice ∈ st.extracted, slice.isMutable = true

theorem Matches.readsAs [DecidableEq α] {ι κ : Type*} {fragments : ℕ → ℕ → α}
    {ops : List (Op ι κ α)} {st : Pool ι κ α} {s : Strings ι α} (h : Matches fragments ops st s) :
    ReadsAs st s where
  content i := (h.holds i).content
  length i := (h.holds i).toNat_length (h.bounded i)
  offsets i slice hslice :=
    have hwf := (h.holds i).wf slice hslice
    ⟨hwf.data_le, hwf.reservable_le, hwf.data_eq_zero⟩
  toString i := (h.holds i).toString_eq
  getRawSlices i maxSlices := by
    refine ⟨fun slice hslice ↦ ?_, ?_⟩
    · obtain ⟨t, ht, rfl⟩ := List.mem_map.1 hslice
      exact (OwnedImpl.of_mem_selectSlices ht).2
    · rw [← (h.holds i).content]
      exact OwnedImpl.selectSlices_prefix st.world _ (h.holds i).wf
  getRawSlicesData i := (h.holds i).toString_eq
  copyOut i start size _ := (h.holds i).copyOut_eq start size
  startsWith i data := (h.holds i).startsWith_iff (h.bounded i) data
  extracted := h.extracted

namespace Pool

variable {ι κ : Type*} [Fintype ι]

/-! ### No two slices are over one fragment

A fragment is handed in once, and its slice is moved, never copied; so the slices over it are
counted by the accounting of `done()`.
-/

/-- The slices of a list that are over fragment `f`. -/
def countOver (f : ℕ) (l : List (Slice α)) : ℕ := l.countP fun s ↦ s.base = some (.fragment f)

theorem countOver_pos {f : ℕ} {l : List (Slice α)} {s : Slice α} (hs : s ∈ l)
    (hbase : s.base = some (.fragment f)) : 0 < countOver f l :=
  List.countP_pos_iff.2 ⟨s, hs, decide_eq_true hbase⟩

theorem card_referring (st : Pool ι κ α) (f : ℕ) :
    (st.referring f).card =
      ∑ i, countOver f (st.buffers i).slices.toList + countOver f st.extracted := by
  have hsum := map_sum (Multiset.countPAddMonoidHom fun s : Slice α ↦ s.base = some (.fragment f))
    (fun i ↦ ((st.buffers i).slices.toList : Multiset (Slice α))) Finset.univ
  rw [referring, ← Multiset.countP_eq_card_filter, live, Multiset.countP_add]
  simp only [Multiset.coe_countPAddMonoidHom, Multiset.coe_countP] at hsum
  rw [hsum, Multiset.coe_countP]
  rfl

/-- Nothing else is over the fragment that the first slice of a buffer is over. -/
theorem fragment_alone {st : Pool ι κ α} {f : ℕ} (hf : (st.referring f).card ≤ 1) {i : ι}
    {s : Slice α}
    {l : List (Slice α)} (hl : (st.buffers i).slices.toList = s :: l)
    (hs : s.base = some (.fragment f)) :
    (∀ t ∈ l, t.base ≠ some (.fragment f)) ∧
      ∀ j ≠ i, ∀ t ∈ (st.buffers j).slices.toList, t.base ≠ some (.fragment f) := by
  rw [card_referring] at hf
  have hfirst : countOver f (st.buffers i).slices.toList = countOver f l + 1 := by
    rw [hl]
    exact List.countP_cons_of_pos (p := fun s : Slice α ↦ s.base = some (.fragment f))
      (decide_eq_true hs)
  refine ⟨fun t ht hbase ↦ ?_, fun j hij t ht hbase ↦ ?_⟩
  · have hpos := countOver_pos ht hbase
    have hle := Finset.single_le_sum
      (f := fun i ↦ countOver f (st.buffers i).slices.toList) (fun _ _ ↦ Nat.zero_le _)
      (Finset.mem_univ i)
    omega
  · have hpos := countOver_pos ht hbase
    have hle := Finset.add_le_sum
      (f := fun i ↦ countOver f (st.buffers i).slices.toList) (fun _ _ ↦ Nat.zero_le _)
      (Finset.mem_univ j) (Finset.mem_univ i) hij
    omega

variable [Fintype κ] [DecidableEq ι] [DecidableEq κ] {fragments fresh : ℕ → ℕ → α}
  {ops : List (Op ι κ α)} {st st' : Pool ι κ α}

/-- A fragment that is handed in at most once is under at most one slice. -/
theorem card_referring_le_one (hrun : Machine.run step ops (init fragments fresh) = some st)
    {f : ℕ} (hf : (registrations ops).count (.done f) ≤ 1) : (st.referring f).card ≤ 1 := by
  have hcount := timesCalled_add_timesCarried hrun (.done f)
  have := (valid_of_run hrun).card_referring_le f
  omega

/-- A fragment that has not been handed in is not written to. -/
theorem untouched_of_step {op : Op ι κ α} {f : ℕ}
    (hrun : Machine.run step ops (init fragments fresh) = some st)
    (hf : .done f ∉ registrations ops) (h : step op st = some st') :
    st'.world.fragments f = st.world.fragments f := by
  refine (valid_of_run hrun).fragment_of_step (fun hwrites ↦ ?_) h
  cases op with
  | prepend i data =>
    obtain ⟨-, hbase, hsize, -⟩ := hwrites
    have hcount := timesCalled_add_timesCarried hrun (.done f)
    have hle := (valid_of_run hrun).card_referring_le f
    rw [List.count_eq_zero.2 hf] at hcount
    cases hl : (st.buffers i).slices.toList with
    | nil =>
      rw [SliceDeque.front_eq, hl] at hsize
      exact hsize rfl
    | cons s l =>
      rw [SliceDeque.front_of_cons hl] at hbase
      have hpos := countOver_pos (l := (st.buffers i).slices.toList) (by rw [hl]; simp) hbase
      have := Finset.single_le_sum
        (f := fun i ↦ countOver f (st.buffers i).slices.toList) (fun _ _ ↦ Nat.zero_le _)
        (Finset.mem_univ i)
      rw [card_referring] at hle
      omega
  | _ => exact hwrites

end Pool

/-! ### One step

For each call the lemma about what the buffer holds is put to the pool: one buffer, or two, are
changed, and the others still hold what they held.
-/

namespace Matches

variable {ι κ : Type*} [Fintype ι] [Fintype κ] [DecidableEq ι] [DecidableEq κ]
  {fragments fresh : ℕ → ℕ → α} {ops : List (Op ι κ α)} {op : Op ι κ α} {st st' : Pool ι κ α}
  {s s' : Strings ι α} {i j : ι} {b b' : OwnedImpl α} {w : World α} {c c' : List α}

omit [Fintype ι] [Fintype κ] [DecidableEq κ] in
theorem holds_setBuffer (hb : b.Holds w c)
    (hothers : ∀ k ≠ i, (st.buffers k).Holds w (s.content k)) (k : ι) :
    ((st.setBuffer i b w).buffers k).Holds w ((s.set i c).content k) := by
  rcases eq_or_ne k i with rfl | hki
  · rw [Pool.buffers_setBuffer_self, Strings.content_set_self]
    exact hb
  · rw [Pool.buffers_setBuffer_of_ne _ hki, Strings.content_set_of_ne _ hki]
    exact hothers k hki

omit [Fintype ι] in
theorem bounded_set (hc : c.length < 2 ^ 64) (hothers : ∀ k, (s.content k).length < 2 ^ 64)
    (k : ι) :
    ((s.set i c).content k).length < 2 ^ 64 := by
  rcases eq_or_ne k i with rfl | hki
  · rwa [Strings.content_set_self]
  · rw [Strings.content_set_of_ne _ hki]
    exact hothers k

omit [Fintype ι] [Fintype κ] [DecidableEq ι] [DecidableEq κ] in
/-- The bytes of an extracted slice are its own. -/
theorem map_bytes_extracted (h : Matches fragments ops st s) (w : World α) :
    st.extracted.map (·.bytes w) = s.extracted := by
  rw [← h.extracted]
  exact List.map_congr_left fun slice hslice ↦
    Slice.load_of_isMutable (h.owned slice hslice) _ _ _ _

/-- The memory of fragments that have not been handed in is as it was. -/
theorem of_step (h : Matches fragments ops st s)
    (hrun : Machine.run Pool.step ops (Pool.init fragments fresh) = some st)
    (hstep : Pool.step op st = some st')
    (hholds : ∀ k, (st'.buffers k).Holds st'.world (s'.content k))
    (hbounded : ∀ k, (s'.content k).length < 2 ^ 64)
    (hextracted : st'.extracted.map (·.bytes st'.world) = s'.extracted)
    (howned : ∀ slice ∈ st'.extracted, slice.isMutable = true) :
    Matches fragments (ops ++ [op]) st' s' where
  holds := hholds
  bounded := hbounded
  untouched f hf := by
    rw [Pool.registrations_append] at hf
    have hf' := fun hmem ↦ hf (List.mem_append_left _ hmem)
    rw [Pool.untouched_of_step hrun hf' hstep, h.untouched f hf']
  extracted := hextracted
  owned := howned

/-- A step on one buffer. -/
theorem setBuffer (h : Matches fragments ops st s)
    (hrun : Machine.run Pool.step ops (Pool.init fragments fresh) = some st)
    (hstep : Pool.step op st = some (st.setBuffer i b w)) (hb : b.Holds w c)
    (hc : c.length < 2 ^ 64) (hothers : ∀ k ≠ i, (st.buffers k).Holds w (s.content k)) :
    Matches fragments (ops ++ [op]) (st.setBuffer i b w) (s.set i c) :=
  h.of_step hrun hstep (holds_setBuffer hb hothers) (bounded_set hc h.bounded)
    (h.map_bytes_extracted w) h.owned

/-- The memory of fragments changes only if a string is prepended. -/
theorem holds_of_ne_prepend (h : Matches fragments ops st s)
    (hrun : Machine.run Pool.step ops (Pool.init fragments fresh) = some st)
    (hstep : Pool.step op st = some st') (hop : ∀ i data, op ≠ .prepend i data) (k : ι) :
    (st.buffers k).Holds st'.world (s.content k) :=
  (h.holds k).congr ((Pool.valid_of_run hrun).steps_of_ne_prepend hop hstep).evolves.fragments

/-- A step on two buffers. -/
theorem setBuffers (h : Matches fragments ops st s)
    (hrun : Machine.run Pool.step ops (Pool.init fragments fresh) = some st)
    (hstep : Pool.step op st = some ((st.setBuffer i b w).setBuffer j b' w))
    (hop : ∀ i data, op ≠ .prepend i data) (hb : b.Holds w c) (hb' : b'.Holds w c')
    (hc : c.length < 2 ^ 64) (hc' : c'.length < 2 ^ 64) :
    Matches fragments (ops ++ [op]) ((st.setBuffer i b w).setBuffer j b' w)
      ((s.set i c).set j c') := by
  have hothers := h.holds_of_ne_prepend hrun hstep hop
  have hfirst := holds_setBuffer (i := i) hb fun k _ ↦ hothers k
  exact h.of_step hrun hstep (holds_setBuffer hb' fun k _ ↦ hfirst k)
    (bounded_set hc' (bounded_set hc h.bounded)) (h.map_bytes_extracted w) h.owned

/-- A fragment that is handed in for the first time has the bytes that it had initially. -/
theorem step_addBufferFragment {fragment : BufferFragment} (h : Matches fragments ops st s)
    (hrun : Machine.run Pool.step ops (Pool.init fragments fresh) = some st)
    (hdistinct :
      (Pool.registrations (ops ++ [.addBufferFragment i fragment])).count (.done fragment.id) ≤ 1)
    (hbound : (s.content i).length + fragment.size < 2 ^ 64) :
    ∃ st' s', Pool.step (.addBufferFragment i fragment) st = some st' ∧
      Strings.Step fragments (.addBufferFragment (κ := κ) i fragment) s s' ∧
      Matches fragments (ops ++ [.addBufferFragment i fragment]) st' s' := by
  have hb := (h.holds i).addBufferFragment fragment
  have hnew : .done fragment.id ∉ Pool.registrations ops := by
    intro hmem
    have hpos := List.count_pos_iff.2 hmem
    have hself : Pool.registrations [(.addBufferFragment i fragment : Op ι κ α)] =
        [.done fragment.id] := List.append_nil _
    rw [Pool.registrations_append, List.count_append, hself, List.count_singleton_self] at hdistinct
    omega
  rw [h.untouched fragment.id hnew] at hb
  have hstep : Pool.step (.addBufferFragment i fragment) st =
      some (st.setBuffer i ((st.buffers i).addBufferFragment fragment st.world).1
        ((st.buffers i).addBufferFragment fragment st.world).2) := by
    rw [Pool.step, if_pos (by omega)]
  exact ⟨_, _, hstep, .addBufferFragment i fragment s, h.setBuffer hrun hstep hb
    (by rwa [List.length_append, Memory.length_read])
    fun k _ ↦ h.holds_of_ne_prepend hrun hstep (by simp) k⟩

/-- What `prepend` writes to the memory of a fragment, only the first slice shows. -/
theorem step_prepend {data : List α} (h : Matches fragments ops st s)
    (hrun : Machine.run Pool.step ops (Pool.init fragments fresh) = some st)
    (hdistinct : ∀ f, (Pool.registrations ops).count (.done f) ≤ 1)
    (hbound : (s.content i).length + data.length < 2 ^ 64)
    (hfits : data.length ≤ (st.buffers i).frontRoom + maxSliceSize) :
    ∃ st' s', Pool.step (.prepend i data) st = some st' ∧
      Strings.Step fragments (.prepend (κ := κ) i data) s s' ∧
      Matches fragments (ops ++ [.prepend i data]) st' s' := by
  have halone {t : Slice α} {l : List (Slice α)} {f : ℕ}
      (hl : (st.buffers i).slices.toList = t :: l) (hbase : t.base = some (.fragment f)) :=
    Pool.fragment_alone (Pool.card_referring_le_one hrun (hdistinct f)) hl hbase
  obtain ⟨b, w, hprepend, hb⟩ :=
    (h.holds i).prepend hfits fun t l f hl hbase ↦ (halone hl hbase).1
  have hstep : Pool.step (.prepend i data) st = some (st.setBuffer i b w) := by
    rw [Pool.step, if_pos (by omega), hprepend, Option.map_some]
  refine ⟨_, _, hstep, .prepend i data s, h.setBuffer hrun hstep hb
    (by rw [List.length_append]; omega) fun k hki ↦ ⟨(h.holds k).wf, ?_, (h.holds k).length⟩⟩
  rw [← (h.holds k).content]
  refine OwnedImpl.contentOf_congr_of_base fun u hu f hf ↦ ?_
  refine (Pool.valid_of_run hrun).fragment_of_step (fun hwrites ↦ ?_) hstep
  obtain ⟨-, hbase, hsize, -⟩ := hwrites
  cases hl : (st.buffers i).slices.toList with
  | nil =>
    rw [SliceDeque.front_eq, hl] at hsize
    exact hsize rfl
  | cons t l =>
    rw [SliceDeque.front_of_cons hl] at hbase
    exact (halone hl hbase).2 k hki u hu hf

/-- The extracted slice owns its bytes. -/
theorem step_extractMutableFrontSlice (h : Matches fragments ops st s)
    (hrun : Machine.run Pool.step ops (Pool.init fragments fresh) = some st)
    (hne : (st.buffers i).length ≠ 0)
    (hfits : ∀ slice ∈ (left 0 (st.buffers i).slices.toList).head?,
      slice.isMutable = false → slice.dataSize ≤ maxSliceSize) :
    ∃ st' s', Pool.step (.extractMutableFrontSlice i) st = some st' ∧
      Strings.Step fragments (.extractMutableFrontSlice (κ := κ) i) s s' ∧
      Matches fragments (ops ++ [.extractMutableFrontSlice i]) st' s' := by
  have hne' : s.content i ≠ [] := by
    intro hnil
    have hlength := (h.holds i).length
    rw [hnil] at hlength
    exact hne hlength
  obtain ⟨e, b, w, front, hextract, hfront, hb, hsplit, howned, hbytes⟩ :=
    (h.holds i).extractMutableFrontSlice hne' (h.bounded i) hfits
  have hstep : Pool.step (.extractMutableFrontSlice i) st =
      some { st.setBuffer i b w with extracted := e :: st.extracted } := by
    rw [Pool.step, hextract, Option.map_some]
  refine ⟨_, _, hstep, .extractMutableFrontSlice i front _ s hfront hsplit,
    h.of_step hrun hstep
      (holds_setBuffer hb fun k _ ↦ h.holds_of_ne_prepend hrun hstep (by simp) k)
      (bounded_set ?_ h.bounded) ?_ fun slice hslice ↦ ?_⟩
  · have := h.bounded i
    rw [List.length_drop]
    omega
  · show e.bytes w :: st.extracted.map (·.bytes w) = front :: s.extracted
    rw [hbytes, h.map_bytes_extracted]
  · rcases List.mem_cons.1 hslice with rfl | hslice
    · exact howned
    · exact h.owned slice hslice

/-- A call that fits does to the buffers what it means for the byte strings. -/
theorem step (h : Matches fragments ops st s)
    (hrun : Machine.run Pool.step ops (Pool.init fragments fresh) = some st)
    (hdistinct : ∀ f, (Pool.registrations (ops ++ [op])).count (.done f) ≤ 1)
    (hallowed : op.Allowed st) (hfits : op.Fits st) :
    ∃ st' s', Pool.step op st = some st' ∧ Strings.Step fragments op s s' ∧
      Matches fragments (ops ++ [op]) st' s' := by
  have hlen (i : ι) : (st.content i).length = (s.content i).length := by
    rw [Pool.content, (h.holds i).content]
  cases op with
  | add i data =>
    obtain ⟨b, w, hadd, hb⟩ := (h.holds i).add hfits
    have hbound : (s.content i).length + data.length < 2 ^ 64 := hlen i ▸ hallowed
    have hstep : Pool.step (.add i data) st = some (st.setBuffer i b w) := by
      rw [Pool.step, if_pos (by omega), hadd, Option.map_some]
    exact ⟨_, _, hstep, .add i data s, h.setBuffer hrun hstep hb (by rwa [List.length_append])
      fun k _ ↦ h.holds_of_ne_prepend hrun hstep (by simp) k⟩
  | addInstance i j =>
    obtain ⟨b, w, hadd, hb⟩ := (h.holds i).addInstance (h.holds j) hfits
    obtain ⟨hij, hbound⟩ := hallowed
    rw [hlen i, hlen j] at hbound
    have hstep : Pool.step (.addInstance i j) st = some (st.setBuffer i b w) := by
      rw [Pool.step, if_pos hij, hadd, Option.map_some]
    exact ⟨_, _, hstep, .addInstance i j s, h.setBuffer hrun hstep hb (by rwa [List.length_append])
      fun k _ ↦ h.holds_of_ne_prepend hrun hstep (by simp) k⟩
  | addBufferFragment i fragment =>
    have hbound : (s.content i).length + fragment.size < 2 ^ 64 := hlen i ▸ hallowed
    exact h.step_addBufferFragment hrun (hdistinct fragment.id) hbound
  | addFragments i strings =>
    have hbound : (s.content i).length + (strings.map List.length).sum < 2 ^ 64 := hlen i ▸ hallowed
    have hsum : (strings.map List.length).sum < 2 ^ 64 := by omega
    obtain ⟨n, b, w, hadd, hb⟩ := (h.holds i).addFragments hsum hfits
    have hstep : Pool.step (.addFragments i strings) st = some (st.setBuffer i b w) := by
      rw [Pool.step, if_pos hsum, hadd, Option.map_some]
    exact ⟨_, _, hstep, .addFragments i strings s, h.setBuffer hrun hstep hb
      (by rwa [List.length_append, List.length_flatten])
      fun k _ ↦ h.holds_of_ne_prepend hrun hstep (by simp) k⟩
  | appendSliceForTest i data =>
    have hbound : (s.content i).length + data.length < 2 ^ 64 := hlen i ▸ hallowed
    have hb := (h.holds i).appendSliceForTest (d := data) hfits
    have hstep : Pool.step (.appendSliceForTest i data) st =
        some (st.setBuffer i ((st.buffers i).appendSliceForTest data st.world).1
          ((st.buffers i).appendSliceForTest data st.world).2) := by
      rw [Pool.step, if_pos (by omega)]
    exact ⟨_, _, hstep, .appendSliceForTest i data s, h.setBuffer hrun hstep hb
      (by rwa [List.length_append]) fun k _ ↦ h.holds_of_ne_prepend hrun hstep (by simp) k⟩
  | prepend i data =>
    have hbound : (s.content i).length + data.length < 2 ^ 64 := hlen i ▸ hallowed
    refine h.step_prepend hrun (fun f ↦ ?_) hbound hfits
    have := hdistinct f
    rw [Pool.registrations_append, List.count_append] at this
    omega
  | prependInstance i j =>
    obtain ⟨hij, hbound⟩ := hallowed
    rw [hlen i, hlen j] at hbound
    obtain ⟨hb, hb'⟩ := (h.holds i).prependInstance (h.holds j)
    have hstep : Pool.step (.prependInstance i j) st =
        some ((st.setBuffer i ((st.buffers i).prependInstance (st.buffers j) st.world).1
          ((st.buffers i).prependInstance (st.buffers j) st.world).2.2).setBuffer j
          ((st.buffers i).prependInstance (st.buffers j) st.world).2.1
          ((st.buffers i).prependInstance (st.buffers j) st.world).2.2) := by
      rw [Pool.step, if_pos hij]
    exact ⟨_, _, hstep, .prependInstance i j s, h.setBuffers hrun hstep (by simp) hb hb'
      (by rw [List.length_append]; omega) (Nat.two_pow_pos 64)⟩
  | drain i n =>
    have hb := (h.holds i).drain n
    have hstep : Pool.step (.drain i n) st = some (st.setBuffer i
        ((st.buffers i).drain n st.world).1 ((st.buffers i).drain n st.world).2) := rfl
    refine ⟨_, _, hstep, .drain i n s, h.setBuffer hrun hstep hb ?_
      fun k _ ↦ h.holds_of_ne_prepend hrun hstep (by simp) k⟩
    have := h.bounded i
    rw [List.length_drop]
    omega
  | move i j =>
    obtain ⟨hij, hbound⟩ := hallowed
    rw [hlen i, hlen j] at hbound
    obtain ⟨b, b', w, hmove, hb, hb'⟩ := (h.holds i).move (h.holds j)
    have hstep : Pool.step (.move i j) st = some ((st.setBuffer i b w).setBuffer j b' w) := by
      rw [Pool.step, if_pos hij, hmove, Option.map_some]
    exact ⟨_, _, hstep, .move i j s, h.setBuffers hrun hstep (by simp) hb hb'
      (by rwa [List.length_append]) (Nat.two_pow_pos 64)⟩
  | moveLength i j n =>
    obtain ⟨hij, hbound⟩ := hallowed
    rw [hlen i, hlen j] at hbound
    obtain ⟨b, b', w, hmove, hb, hb'⟩ := (h.holds i).moveLength (h.holds j) hfits
    have hstep : Pool.step (.moveLength i j n) st =
        some ((st.setBuffer i b w).setBuffer j b' w) := by
      rw [Pool.step, if_pos hij, hmove, Option.map_some]
    refine ⟨_, _, hstep, .moveLength i j n s, h.setBuffers hrun hstep (by simp) hb hb'
      (by rwa [List.length_append, List.length_take]) ?_⟩
    have := h.bounded j
    rw [List.length_drop]
    omega
  | linearize i n =>
    obtain ⟨hsize, hn⟩ := hallowed
    rw [(h.holds i).toNat_length (h.bounded i)] at hn
    obtain ⟨p, b, w, hlinearize, hb, -⟩ := (h.holds i).linearize (h.bounded i)
      (by rw [maxSliceSize]; omega) hn
    have hstep : Pool.step (.linearize i n) st = some (st.setBuffer i b w) := by
      rw [Pool.step, if_pos hsize, hlinearize, Option.map_some]
    -- the bytes are in other slices now, but the strings are what they were
    have hset : s.set i (s.content i) = s := by
      rw [Strings.set, Function.update_eq_self]
    refine ⟨_, s, hstep, .linearize i n s, ?_⟩
    have := h.setBuffer hrun hstep hb (h.bounded i)
      fun k _ ↦ h.holds_of_ne_prepend hrun hstep (by simp) k
    rwa [hset] at this
  | extractMutableFrontSlice i => exact h.step_extractMutableFrontSlice hrun hallowed hfits
  | _ => exact hallowed.elim

omit [Fintype ι] in
/-- After `linearize` the first slice has the bytes. -/
theorem front_of_linearize {n : ℕ} (h : Matches fragments ops st s)
    (hallowed : (Op.linearize (κ := κ) i n : Op ι κ α).Allowed st)
    (hstep : Pool.step (.linearize i n) st = some st') :
    n ≤ (st'.buffers i).slices.front.dataSize := by
  obtain ⟨hsize, hn⟩ := hallowed
  rw [(h.holds i).toNat_length (h.bounded i)] at hn
  obtain ⟨p, b, w, hlinearize, -, hfront⟩ := (h.holds i).linearize (h.bounded i)
    (by rw [maxSliceSize]; omega) hn
  rw [Pool.step, if_pos hsize, hlinearize, Option.map_some] at hstep
  obtain rfl := Option.some.inj hstep
  rwa [Pool.buffers_setBuffer_self]

end Matches

/-! ### Runs

The simulation over a run is by induction on it, with what the run has registered so far as part of
the relation.
-/

namespace Pool

variable {ι κ : Type*}

theorem matches_init (fragments fresh : ℕ → ℕ → α) :
    Matches fragments [] (init fragments fresh : Pool ι κ α) ({} : Strings ι α) where
  holds _ := OwnedImpl.holds_empty _
  bounded _ := Nat.two_pow_pos 64
  untouched _ _ := rfl
  extracted := rfl
  owned _ h := absurd h List.not_mem_nil

variable [Fintype ι] [Fintype κ] [DecidableEq ι] [DecidableEq κ]

/-- **The buffers refine byte strings.** A run in which no slice is asked for that must hold more
than `maxSliceSize` bytes returns from every call, and it is matched by a run of the same calls on
byte strings: in the end, as after each of its calls, every buffer is its byte string. -/
theorem refines_strings [DecidableEq α] {fragments fresh : ℕ → ℕ → α} {ops : List (Op ι κ α)}
    (hdistinct : ∀ f, (registrations ops).count (.done f) ≤ 1)
    (hmeets : Machine.Meets step (fun op st ↦ op.Allowed st ∧ op.Fits st) ops
      (init fragments fresh)) :
    ∃ st s, Machine.run step ops (init fragments fresh) = some st ∧
      Machine.Runs (Strings.Step fragments) ops {} s ∧ ReadsAs st s ∧
      ∀ as i n, ops = as ++ [.linearize i n] → n ≤ (st.buffers i).slices.front.dataSize := by
  obtain ⟨st, s, hrun, hruns, hmatches, hfront⟩ := Machine.refinement_of_meets
    (P := fun ops st s ↦ Matches fragments ops st s ∧
      ∀ as i n, ops = as ++ [.linearize i n] → n ≤ (st.buffers i).slices.front.dataSize)
    ⟨matches_init fragments fresh, fun as i n h ↦ by simp at h⟩
    (fun as op st s has hrun ⟨hmatches, _⟩ ⟨hallowed, hfits⟩ ↦ by
      have hdistinct' (f : ℕ) : (registrations (as ++ [op])).count (.done f) ≤ 1 := by
        obtain ⟨rest, hrest⟩ := has
        have := hdistinct f
        rw [← hrest, registrations_append, List.count_append] at this
        omega
      obtain ⟨st', s', hstep, hnext, hmatches'⟩ :=
        hmatches.step hrun hdistinct' hallowed hfits
      refine ⟨st', s', hstep, hnext, hmatches', fun bs i n heq ↦ ?_⟩
      obtain ⟨-, hop⟩ := List.append_inj' heq rfl
      obtain rfl := List.head_eq_of_cons_eq hop
      exact hmatches.front_of_linearize hallowed hstep) hmeets
  exact ⟨st, s, hrun, hruns, hmatches.readsAs, hfront⟩

end Pool

/-- Every call once, between two buffers. -/
def everyCall {ι κ : Type} (i j : ι) : List (Op ι κ ℕ) :=
  [.add i [1, 2], .addBufferFragment i ⟨0, 3⟩, .drain i 3, .prepend i [9],
    .addFragments j [[4], [5]],
    .addInstance j i, .moveLength i j 4, .extractMutableFrontSlice i, .move j i,
    .prependInstance i j, .appendSliceForTest i [7], .linearize i 3]

/-- Every call is made once, and in the end the first slice of the buffer has the three bytes that
`linearize` has put there. -/
theorem Pool.refines_strings_everyCall :
    ∃ (st : Pool (Fin 2) (Fin 1) ℕ) (s : Strings (Fin 2) ℕ),
      Machine.run step (everyCall 0 1) (init (fun _ n ↦ n) fun _ _ ↦ 0) = some st ∧
      Machine.Runs (Strings.Step fun _ n ↦ n) (everyCall 0 1 : List (Op _ (Fin 1) ℕ)) {} s ∧
      ReadsAs st s ∧
      3 ≤ (st.buffers 0).slices.front.dataSize := by
  set calls : List (Op (Fin 2) (Fin 1) ℕ) := everyCall 0 1
  have hdistinct (f : ℕ) : (registrations calls).count (.done f) ≤ 1 :=
    (List.count_le_length (l := registrations calls))
  have hmeets : Machine.Meets step (fun op st ↦ op.Allowed st ∧ op.Fits st) calls
      (init (fun _ n ↦ n) fun _ _ ↦ 0) := by
    decide
  obtain ⟨st, s, hrun, hruns, hreads, hfront⟩ := refines_strings hdistinct hmeets
  exact ⟨st, s, hrun, hruns, hreads, hfront calls.dropLast 0 3 rfl⟩

/-- The size of the slice wraps to zero: the bytes are counted and not kept. -/
theorem OwnedImpl.Holds.appendSliceForTest_of_lt {b : OwnedImpl α} {w : World α} {c d : List α}
    (hb : b.Holds w c) (hlt : maxSliceSize < d.length) (hd : d.length < 2 ^ 64) :
    contentOf (b.appendSliceForTest d w).2 (b.appendSliceForTest d w).1.slices.toList = c ∧
      (b.appendSliceForTest d w).1.length = .ofNat (c.length + d.length) := by
  obtain ⟨-, hlength, hext⟩ := OwnedImpl.appendSliceForTest_spec hb.wf d w
  have hevolves := OwnedImpl.appendSliceForTest_evolves hb.wf d w
  rw [sliceSize_eq_zero hlt hd, Nat.min_zero, List.take_zero] at hext
  refine ⟨?_, ?_⟩
  · rw [hext.contentOf, List.append_nil, contentOf_congr hevolves.fragments, hb.content]
  · rw [hlength, hb.length, UInt64.ofNat_add]

/-- A string that no slice can be made for leaves the buffer empty, and the buffer says that it has
the bytes. -/
theorem Pool.appendSliceForTest_of_lt [DecidableEq α] {d : List α} (hlt : maxSliceSize < d.length)
    (hd : d.length < 2 ^ 64) (fragments fresh : ℕ → ℕ → α) :
    Machine.Meets step (fun op st ↦ op.Allowed st)
      [(.appendSliceForTest 0 d : Op (Fin 1) (Fin 1) α)] (init fragments fresh) ∧
      ∃ st, Machine.run step [(.appendSliceForTest 0 d : Op (Fin 1) (Fin 1) α)]
          (init fragments fresh) = some st ∧
        st.content 0 = [] ∧ (st.buffers 0).length.toNat = d.length ∧ ∀ s, ¬ReadsAs st s := by
  obtain ⟨hcontent, hlength⟩ :=
    (OwnedImpl.holds_empty { fragments, fresh }).appendSliceForTest_of_lt hlt hd
  rw [List.length_nil, Nat.zero_add] at hlength
  obtain ⟨b, hb⟩ : ∃ b, OwnedImpl.appendSliceForTest {} d { fragments, fresh } = b := ⟨_, rfl⟩
  rw [hb] at hcontent hlength
  have hcontent' : ((init fragments fresh).setBuffer 0 b.1 b.2 : Pool (Fin 1) (Fin 1) α).content 0 =
      [] := by
    rw [content, buffers_setBuffer_self]
    exact hcontent
  have hlength' : (((init fragments fresh).setBuffer 0 b.1 b.2 : Pool (Fin 1) (Fin 1) α).buffers
      0).length.toNat = d.length := by
    rw [buffers_setBuffer_self, hlength, UInt64.toNat_ofNat', Nat.mod_eq_of_lt hd]
  refine ⟨⟨?_, fun _ _ ↦ trivial⟩, _, ?_, hcontent', hlength', fun s hs ↦ ?_⟩
  · show 0 + d.length < 2 ^ 64
    omega
  · rw [Machine.run_singleton, step, if_pos hd, ← hb]
    rfl
  · have hcount := hs.length 0
    rw [hlength', ← hs.content 0, hcontent', List.length_nil] at hcount
    omega

/-- One string of `2 ^ 64 - 1` bytes. -/
def oversized {ι κ : Type} (i : ι) : List (Op ι κ ℕ) :=
  [.appendSliceForTest i (List.replicate (2 ^ 64 - 1) 0)]

/-- The call is allowed, and the buffer that it leaves reads as no byte string. -/
theorem oversized_append_loses_bytes :
    (∀ f, (Pool.registrations (oversized 0 : List (Op (Fin 1) (Fin 1) ℕ))).count (.done f) ≤ 1) ∧
      Machine.Meets Pool.step (fun op st ↦ op.Allowed st) (oversized 0)
        (Pool.init (fun _ n ↦ n) fun _ _ ↦ 0 : Pool (Fin 1) (Fin 1) ℕ) ∧
      ∃ st : Pool (Fin 1) (Fin 1) ℕ,
        Machine.run Pool.step (oversized 0) (Pool.init (fun _ n ↦ n) fun _ _ ↦ 0) = some st ∧
        st.content 0 = [] ∧ (st.buffers 0).length.toNat = 2 ^ 64 - 1 ∧ ∀ s, ¬ReadsAs st s := by
  have hlen : (List.replicate (2 ^ 64 - 1) 0).length = 2 ^ 64 - 1 := List.length_replicate
  obtain ⟨hmeets, hrun⟩ := Pool.appendSliceForTest_of_lt (d := List.replicate (2 ^ 64 - 1) 0)
    (by rw [hlen, maxSliceSize]; omega) (by rw [hlen]; omega) (fun _ n ↦ n) fun _ _ ↦ 0
  rw [hlen] at hrun
  exact ⟨fun f ↦ Nat.zero_le 1, hmeets, hrun⟩

end TcpServer.Buffer
