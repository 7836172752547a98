import TcpServer.Buffer.FragmentMemory

/-!
# Reserve, then commit

What the caller writes to a reservation, and no more than that, is what a commit appends. Between
the two the buffer is left alone, while anything may happen to other buffers, and the caller may
write to the reservation in any order (`Op.Quiet`). `Pending` is what such steps preserve: the
reservation is backed by the buffer as it was when it was made, and the buffer has the content it
had then.

`Lent` says where the slices of a reservation are. That no slice of any buffer holds data there is a
matter of the storages being distinct: if the memory is behind the data of one slice, no other slice
has that storage.

The theorem has three parts. In every reachable state a reservation can be made
(`Pool.exists_reserves`), which grants as many bytes as its kind promises; it leaves the content as
it is, and lends memory that holds no data (`Valid.lent`). Then come any steps that are quiet for it
(`Pending.run`). In every state that is reached so, the caller can write, commit or drop it
(`Pending.committable`), and a commit of `n` bytes appends the first `n` that are in the lent
memory, whatever the order in which they got there.
-/

namespace TcpServer.Buffer

variable {α ι κ : Type*}

/-- The three ways to make a reservation. -/
inductive Request
  | forRead
  | withMaxLength (maxLength : ℕ)
  | singleSlice (length : ℕ) (separateSlice : Bool)

namespace Request

/-- The call of the pool that makes the reservation. -/
def op (request : Request) (i : ι) (k : κ) : Op ι κ α :=
  match request with
  | .forRead => .reserveForRead i k
  | .withMaxLength maxLength => .reserveWithMaxLength i k maxLength
  | .singleSlice length separateSlice => .reserveSingleSlice i k length separateSlice

/-- Something is asked for, and the size of its storage does not wrap. -/
def Allowed : Request → Prop
  | .forRead => True
  | .withMaxLength maxLength => 0 < maxLength
  | .singleSlice length _ => 0 < length ∧ length ≤ maxSliceSize

/-- How many slices there are, and how many bytes. -/
def Grants (request : Request) (o : Outstanding α) : Prop :=
  match request with
  | .forRead => 1 ≤ o.slices.length ∧ o.slices.length ≤ maxSlices ∧
      o.length ≤ reserveLimit defaultReadReservationSize
  | .withMaxLength maxLength => 1 ≤ o.slices.length ∧ o.slices.length ≤ maxSlices ∧
      o.length ≤ reserveLimit maxLength
  | .singleSlice length _ => o.slices.length = 1 ∧ o.length = length

/-- Every kind of reservation has a slice. -/
theorem Grants.slices_ne_nil {request : Request} {o : Outstanding α} (h : request.Grants o) :
    o.slices ≠ [] := by
  rw [← List.length_pos_iff]
  cases request with
  | forRead | withMaxLength => exact h.1
  | singleSlice => exact h.1 ▸ Nat.one_pos

end Request

/-- A step that leaves buffer `i`, the memory of its fragments, and its reservation `k` alone, or
that writes to the reservation. -/
def Op.Quiet (i : ι) (k : κ) (op : Op ι κ α) (st : Pool ι κ α) : Prop :=
  (∃ j offset bytes, op = .write k j offset bytes) ∨
    i ∉ op.modifies st ∧ op ≠ .dropReservation k ∧
      ∀ f, op.WritesTo st f → ∀ s ∈ (st.buffers i).slices.toList, s.base ≠ some (.fragment f)

/-! ### The slices of a reservation

A slice of a reservation is a pointer into the memory behind the data of the last slice of the
buffer, or into a storage that the reservation holds. Writing through it changes the bytes behind
that slice and no other.
-/

/-- Each of them is lent by its storage; only the first may be lent by the last slice of the
buffer. -/
theorem Backed.getElem? {b : OwnedImpl α} {slices : List RawSlice}
    {storages : List (SizedStorage α)}
    (h : Backed b slices storages) {j : ℕ} {slice : RawSlice} (hj : slices[j]? = some slice) :
    ∃ storage, storages[j]? = some storage ∧
      (Lends slice storage ∨ j = 0 ∧ storage.mem = none ∧
        ∃ l s, b.slices.toList = l ++ [s] ∧ slice.mem = s.base.map (·, s.reservable) ∧
          0 < slice.len ∧ slice.len ≤ s.reservableSize) := by
  have hlends {slices : List RawSlice} {storages : List (SizedStorage α)}
      (h : List.Forall₂ Lends slices storages) {j : ℕ} (hj : slices[j]? = some slice) :
      ∃ storage, storages[j]? = some storage ∧ Lends slice storage := by
    induction h generalizing j with
    | nil => simp at hj
    | @cons r storage slices storages hr hrest ih =>
      cases j with
      | zero => exact ⟨storage, rfl, Option.some.inj hj ▸ hr⟩
      | succ j => exact ih hj
  cases h with
  | owned h =>
    obtain ⟨storage, hstorage, hlent⟩ := hlends h hj
    exact ⟨storage, hstorage, .inl hlent⟩
  | @behind l s k slices storages hl hk hroom h =>
    cases j with
    | zero =>
      obtain rfl := Option.some.inj hj
      exact ⟨{}, rfl, .inr ⟨rfl, rfl, l, s, hl, rfl, hk, hroom⟩⟩
    | succ j =>
      obtain ⟨storage, hstorage, hlent⟩ := hlends h hj
      exact ⟨storage, hstorage, .inl hlent⟩

theorem Backed.exists_owner {b : OwnedImpl α} {o : Outstanding α} (h : Backed b o.slices o.storages)
    (hne : o.slices ≠ []) : ∃ owner, o.owner = some owner := by
  refine Option.ne_none_iff_exists'.1 fun hnone ↦ hne (List.length_eq_zero_iff.1 ?_)
  rw [h.length_eq, Outstanding.storages, hnone]
  rfl

/-- The bytes behind each slice of a reservation. -/
def Outstanding.written (o : Outstanding α) (b : OwnedImpl α) (w : World α) : List (List α) :=
  o.slices.zipWith (lentBytes b w) o.storages

/-- The bytes that a storage lends do not depend on the buffer. -/
theorem lentBytes_of_lends {slice : RawSlice} {storage : SizedStorage α} {mem : Storage α}
    (hlends : Lends slice storage) (hmem : storage.mem = some mem) (b : OwnedImpl α) (w : World α) :
    lentBytes b w slice storage = Memory.read mem.mem 0 slice.len := by
  obtain ⟨m, hm, hslice, -, -⟩ := hlends
  rw [lentBytes, hslice, hmem]

/-- Two lists put together, after a change to one position of the second. -/
theorem zipWith_eq_modify {β γ δ : Type*} {f f' : β → γ → δ} {g : δ → δ} {l : List β}
    {m m' : List γ}
    {j : ℕ} {x : β} {y y' : γ} (hx : l[j]? = some x) (hy : m[j]? = some y) (hy' : m'[j]? = some y')
    (hg : f' x y' = g (f x y)) (hm : ∀ n ≠ j, m'[n]? = m[n]?)
    (hf : ∀ n ≠ j, ∀ x y, l[n]? = some x → m[n]? = some y → f' x y = f x y) :
    List.zipWith f' l m' = (List.zipWith f l m).modify j g := by
  refine List.ext_getElem? fun n ↦ ?_
  rw [List.getElem?_modify, List.getElem?_zipWith, List.getElem?_zipWith]
  rcases eq_or_ne n j with rfl | hne
  · simp only [hx, hy, hy', hg, if_true, Option.map_eq_map, Option.map_some]
  · rw [hm n hne]
    cases hl : l[n]? with
    | none => rfl
    | some a =>
      cases hb : m[n]? with
      | none => rfl
      | some b => simp [hf n hne a b hl hb, hne.symm]

/-- **A write overwrites the bytes behind one slice**, wherever they are. -/
theorem Outstanding.write_written {o : Outstanding α} {b : OwnedImpl α} (hb : b.WF)
    (hbacked : Backed b o.slices o.storages) {j offset : ℕ} {slice : RawSlice} {bytes : List α}
    (hj : o.slices[j]? = some slice) (hbytes : offset + bytes.length ≤ slice.len) (w : World α) :
    ∃ o' b', o.write b j offset bytes w = some (o', b', w) ∧
      o'.written b' w = (o.written b w).modify j (Memory.overwrite offset bytes) := by
  obtain ⟨owner, howner⟩ := hbacked.exists_owner (List.ne_nil_of_mem (List.mem_of_getElem? hj))
  obtain ⟨storage, hstorage, hlent⟩ := hbacked.getElem? hj
  rw [write, howner, hj, hstorage]
  simp only [if_neg (by omega : ¬slice.len < offset + bytes.length)]
  rcases hlent with hlends | ⟨rfl, hmem, l, s, hl, hslice, hpos, hroom⟩
  · -- The storage is the owner's, and the slice is its beginning.
    obtain ⟨mem, hmem, hslice, hpos, hle⟩ := hlends
    simp only [hslice, hmem]
    refine ⟨_, b, rfl, ?_⟩
    rw [written, written, slices_setOwner,
      storages_setOwner howner List.length_set]
    have hlt : j < o.storages.length := (List.getElem?_eq_some_iff.1 hstorage).1
    refine zipWith_eq_modify hj hstorage (List.getElem?_set_self hlt) ?_
      (fun n hn ↦ List.getElem?_set_ne hn.symm) fun _ _ _ _ _ _ ↦ rfl
    rw [lentBytes, lentBytes, hslice, hmem]
    exact Memory.read_write_within mem.mem 0 hbytes
  · -- The memory is behind the data of the last slice.
    obtain ⟨st, hst⟩ := (hb s (by simp [hl])).owned_of_reservableSize (by omega)
    have hbase : s.base = some (.storage st.id) := by rw [Slice.base, hst]
    rw [hbase, Option.map_some] at hslice
    simp only [hslice, hmem, SliceDeque.back_of_concat hl, hbase, Option.map_some, if_pos hroom,
      true_and]
    refine ⟨o, _, by rw [Slice.store, hst], ?_⟩
    refine zipWith_eq_modify hj hstorage hstorage ?_ (fun _ _ ↦ rfl) fun n hn r st' hr hst' ↦ ?_
    · rw [lentBytes, lentBytes, hslice, hmem]
      dsimp only
      rw [SliceDeque.back_of_concat (SliceDeque.setBack_of_concat hl _),
        SliceDeque.back_of_concat hl, Slice.load, Slice.load, hst]
      exact Memory.read_write_within st.mem s.reservable hbytes
    · obtain ⟨st'', hst'', hlends | ⟨rfl, -⟩⟩ := hbacked.getElem? hr
      · obtain rfl := Option.some.inj (hst'.symm.trans hst'')
        obtain ⟨mem, hmem, -⟩ := id hlends
        rw [lentBytes_of_lends hlends hmem, lentBytes_of_lends hlends hmem]
      · exact absurd rfl hn

/-- Each of them has as many bytes as the slice. -/
theorem Outstanding.map_length_written {o : Outstanding α} {b : OwnedImpl α} (hb : b.WF)
    (hbacked : Backed b o.slices o.storages) (w : World α) :
    (o.written b w).map List.length = o.slices.map RawSlice.len := by
  refine List.ext_getElem? fun j ↦ ?_
  rw [List.getElem?_map, List.getElem?_map, written, List.getElem?_zipWith]
  cases hj : o.slices[j]? with
  | none => rfl
  | some slice =>
    obtain ⟨storage, hstorage, hlends | ⟨-, hmem, l, s, hl, hslice, hpos, hroom⟩⟩ :=
      hbacked.getElem? hj
    · obtain ⟨mem, hmem, -⟩ := id hlends
      simp [hstorage, lentBytes_of_lends hlends hmem]
    · have hs := hb s (by simp [hl])
      obtain ⟨st, hst⟩ := hs.owned_of_reservableSize (by omega)
      have hload : (s.load w s.reservable slice.len).length = slice.len := by
        refine hs.length_load w ?_
        rw [Slice.reservableSize] at hroom
        omega
      simp [hstorage, lentBytes, hslice, Slice.base, hst, hmem, SliceDeque.back_of_concat hl, hload]

namespace Pool

/-- The bytes of buffer `i`. -/
def content (st : Pool ι κ α) (i : ι) : List α := contentOf st.world (st.buffers i).slices.toList

/-- The bytes behind the slices of reservation `k`. -/
def written (st : Pool ι κ α) (k : κ) : List (List α) :=
  match st.reservations k with
  | some (i, o) => o.written (st.buffers i) st.world
  | none => []

theorem written_eq {st : Pool ι κ α} {i : ι} {k : κ} {o : Outstanding α}
    (hk : st.reservations k = some (i, o)) : st.written k = o.written (st.buffers i) st.world := by
  rw [written, hk]

/-- A reservation can be made whenever something is asked for. -/
theorem exists_reserves [DecidableEq ι] [DecidableEq κ] [Fintype κ]
    (st : Pool ι κ α) (i : ι) {k : κ} (hk : st.reservations k = none) {request : Request}
    (hrequest : request.Allowed) :
    ∃ o owner b w, Pool.step (request.op i k) st =
        some ((st.setBuffer i b w).setReservation k (some (i, o))) ∧ o.owner = some owner ∧
      Reserves (st.buffers i) st.world o.slices owner b w ∧ o.length = totalLen o.slices ∧
      request.Grants o := by
  have hnone : (st.reservations k).isNone := by rw [hk]; rfl
  cases request with
  | forRead =>
    obtain ⟨r, owner, b, w, hreserve, howner, hreserves, hlength, hne, hcount, hlimit⟩ :=
      OwnedImpl.reserveWithMaxLength_spec (b := st.buffers i)
        (show 0 < defaultReadReservationSize by decide) st.world
    refine ⟨.multiple r, owner, b, w, ?_, howner, hreserves, hlength,
      List.length_pos_of_ne_nil hne, hcount, hlimit⟩
    rw [Request.op, Pool.step, if_pos hnone, OwnedImpl.reserveForRead, hreserve]
  | withMaxLength maxLength =>
    obtain ⟨r, owner, b, w, hreserve, howner, hreserves, hlength, hne, hcount, hlimit⟩ :=
      OwnedImpl.reserveWithMaxLength_spec (b := st.buffers i) hrequest st.world
    refine ⟨.multiple r, owner, b, w, ?_, howner, hreserves, hlength,
      List.length_pos_of_ne_nil hne, hcount, hlimit⟩
    rw [Request.op, Pool.step, if_pos ⟨hnone, hrequest⟩, hreserve]
  | singleSlice length separateSlice =>
    obtain ⟨r, owner, b, w, hreserve, howner, hreserves, hlength⟩ :=
      OwnedImpl.reserveSingleSlice_spec (b := st.buffers i) hrequest.1 hrequest.2 separateSlice
        st.world
    refine ⟨.single r, owner, b, w, ?_, howner, hreserves, ?_, rfl, hlength⟩
    · rw [Request.op, Pool.step, if_pos ⟨hnone, hrequest⟩, hreserve]
    · exact (Nat.add_zero _).symm

variable [Fintype ι]

/-- A slice of a reservation is in a storage that the reservation holds or that is behind the data
of a slice, and no slice has data there. -/
def Lent (st : Pool ι κ α) (o : Outstanding α) (slice : RawSlice) : Prop :=
  ∃ (storage : Storage α) (start : ℕ), slice.mem = some (.storage storage.id, start) ∧
    0 < slice.len ∧ start + slice.len ≤ storage.size ∧
    ((∃ sized ∈ o.storages, sized.mem = some storage) ∨ ∃ s ∈ st.live, s.backing = .owned storage) ∧
    ∀ s ∈ st.live, s.base = some (.storage storage.id) → s.reservable ≤ start

/-! ### Where the slices are

That a slice of a reservation is in memory of its own comes from the counting of storages in the
pool: a storage that is held is counted once, so no slice has it, and the last slice of the buffer
is the only one over its own storage.
-/

section Lent

variable {st : Pool ι κ α} {i : ι} {k : κ} {o : Outstanding α}

theorem mem_live_of_buffer {s : Slice α} (hs : s ∈ (st.buffers i).slices.toList) : s ∈ st.live := by
  refine Multiset.mem_add.2 (.inl (Multiset.mem_sum.2 ⟨i, Finset.mem_univ i, ?_⟩))
  exact Multiset.mem_coe.2 hs

theorem Slice.storageId_eq_some_iff {s : Slice α} {id : ℕ} :
    s.storageId = some id ↔ s.base = some (.storage id) := by
  rw [Slice.storageId]
  cases h : s.base with
  | none => simp
  | some block => cases block <;> simp

variable [Fintype κ]

/-- No two slices have the same storage. -/
theorem Valid.eq_of_storageId (hst : st.Valid) {s t : Slice α} (hs : s ∈ st.live) (ht : t ∈ st.live)
    {id : ℕ} (hs' : s.storageId = some id) (ht' : t.storageId = some id) : t = s := by
  have hnodup : (st.live.filterMap Slice.storageId).Nodup := by
    rw [← inventory_fst]
    refine Multiset.nodup_of_le ?_ hst.distinct.1
    exact (Multiset.le_add_right _ _).trans (Multiset.le_add_right _ _)
  obtain ⟨m, hm⟩ := Multiset.exists_cons_of_mem hs
  rw [hm, Multiset.filterMap_cons_some _ _ _ hs', Multiset.nodup_cons] at hnodup
  rw [hm] at ht
  refine (Multiset.mem_cons.1 ht).resolve_right fun htm ↦ hnodup.1 ?_
  exact (Multiset.mem_filterMap _ _).2 ⟨t, htm, ht'⟩

/-- A storage held by a reservation is no slice's. -/
theorem Valid.ne_of_heldBy (hst : st.Valid) (hk : st.reservations k = some (i, o)) {id : ℕ}
    (hid : id ∈ heldBy o.storages) {s : Slice α} (hs : s ∈ st.live) : s.storageId ≠ some id := by
  intro hs'
  have hdisjoint := (Multiset.nodup_add.1 (Multiset.nodup_of_le (Multiset.le_add_right _ _)
    hst.distinct.1)).2.2
  refine Multiset.disjoint_left.1 hdisjoint ((Multiset.mem_filterMap _ _).2 ⟨s, ?_, hs'⟩) ?_
  · rwa [inventory_fst]
  · have hsum : st.inventory.2 = ∑ k, (heldIn (st.reservations k)).2 := by
      simp [inventory, slicesOf, Prod.snd_sum]
    rw [hsum]
    refine Multiset.mem_sum.2 ⟨k, Finset.mem_univ k, ?_⟩
    rw [hk]
    exact hid

variable [DecidableEq ι]

/-- **The slices of a reservation are in memory that holds no data.** -/
theorem Valid.lent (hst : st.Valid) (hk : st.reservations k = some (i, o))
    (hbacked : Backed (st.buffers i) o.slices o.storages) {slice : RawSlice}
    (h : slice ∈ o.slices) :
    st.Lent o slice := by
  obtain ⟨j, hj⟩ := List.getElem?_of_mem h
  obtain ⟨storage, hstorage, hlent⟩ := hbacked.getElem? hj
  obtain ⟨owner, howner⟩ := hbacked.exists_owner (List.ne_nil_of_mem h)
  rcases hlent with ⟨mem, hmem, hslice, hpos, hle⟩ | ⟨-, -, l, s, hl, hslice, hpos, hroom⟩
  · have hstorage := List.mem_of_getElem? hstorage
    refine ⟨mem, 0, hslice, hpos, ?_, .inl ⟨storage, hstorage, hmem⟩, fun s hs hbase ↦ ?_⟩
    · rw [Outstanding.storages_of_owner howner] at hstorage
      have hsize := (hst.owners k i o owner hk howner).storages storage hstorage mem hmem
      omega
    · refine absurd (Slice.storageId_eq_some_iff.2 hbase) (hst.ne_of_heldBy hk ?_ hs)
      exact Multiset.mem_coe.2 (List.mem_map.2 ⟨mem, List.mem_filterMap.2 ⟨storage, hstorage, hmem⟩,
        rfl⟩)
  · have hs : s ∈ (st.buffers i).slices.toList := by simp [hl]
    have hwf := hst.buffer i s hs
    have hlive := mem_live_of_buffer hs
    obtain ⟨mem, hmem⟩ := hwf.owned_of_reservableSize (by omega)
    have hbase : s.base = some (.storage mem.id) := by rw [Slice.base, hmem]
    refine ⟨mem, s.reservable, by rw [hslice, hbase]; rfl, hpos, ?_, .inr ⟨s, hlive, hmem⟩,
      fun t ht htbase ↦ ?_⟩
    · have := hwf.owned mem hmem
      have := hwf.reservable_le
      rw [Slice.reservableSize] at hroom
      omega
    · rw [hst.eq_of_storageId hlive ht (Slice.storageId_eq_some_iff.2 hbase)
        (Slice.storageId_eq_some_iff.2 htbase)]

end Lent

/-! ### Between reserve and commit

The buffer of the reservation stays as it is while others are at work, except that its bytes behind
the data may change. So the pair of the state and the reservation is followed step by step.
-/

variable [Fintype κ]

/-- What steps that are quiet for buffer `i` and reservation `k` preserve, since the state `st₁` in
which the reservation was `o₁`. -/
structure Pending (i : ι) (k : κ) (st₁ : Pool ι κ α) (o₁ : Outstanding α) (st : Pool ι κ α) :
    Prop where
  /-- The pool is in order. -/
  valid : st.Valid
  /-- The reservation is still there, with the same slices, and backed by the buffer. -/
  reservation : ∃ o, st.reservations k = some (i, o) ∧ o.slices = o₁.slices ∧ o.length = o₁.length ∧
    Backed (st.buffers i) o.slices o.storages
  /-- The content is what it was. -/
  content : st.content i = st₁.content i
  /-- The length is what it was. -/
  length : (st.buffers i).length = (st₁.buffers i).length

/-- What the caller can do with reservation `k` of buffer `i`, whose content was `content` and whose
length was `length` when it was made: write to any part of it, commit any part of it, drop it. -/
structure Committable [DecidableEq ι] [DecidableEq κ] (st : Pool ι κ α) (i : ι) (k : κ)
    (o : Outstanding α) (content : List α) (length : UInt64) : Prop where
  /-- Behind each slice there are as many bytes as it has. -/
  lengths : (st.written k).map List.length = o.slices.map RawSlice.len
  /-- Bytes can be written to any part of any slice. -/
  write : ∀ j offset bytes slice, o.slices[j]? = some slice → offset + bytes.length ≤ slice.len →
    ∃ st', step (.write k j offset bytes) st = some st' ∧
      st'.written k = (st.written k).modify j (Memory.overwrite offset bytes)
  /-- Any number of bytes up to the length can be committed, and the first of them are appended. -/
  commit : ∀ n ≤ o.length, ∃ st', step (.commit k n) st = some st' ∧
    st'.content i = content ++ (st.written k).flatten.take n ∧
    (st'.buffers i).length = length + .ofNat n ∧ (n = 0 → st'.buffers i = st.buffers i)
  /-- The reservation can be dropped, which changes nothing. -/
  drop : ∃ st', step (.dropReservation k) st = some st' ∧ st'.buffers i = st.buffers i ∧
    st'.content i = content ∧ (st'.buffers i).length = length

section Pending

variable [DecidableEq ι] [DecidableEq κ] {st st' st₁ : Pool ι κ α} {i : ι} {k : κ}
  {o₁ : Outstanding α}

/-- A step of others. The buffer is as it was, and so is the memory of its fragments. -/
theorem content_of_step {op : Op ι κ α} (hst : st.Valid) (h : step op st = some st')
    (hi : i ∉ op.modifies st) (hwrites : ∀ f, op.WritesTo st f →
      ∀ s ∈ (st.buffers i).slices.toList, s.base ≠ some (.fragment f)) :
    st'.content i = st.content i := by
  rw [content, content, buffers_of_step h hi]
  refine List.flatMap_congr fun s hs ↦ Slice.load_congr (fun f hf ↦ ?_) _ _
  exact hst.fragment_of_step (fun hop ↦ hwrites f hop s hs (Slice.base_eq_fragment_iff.2 hf)) h

/-- A quiet step keeps the reservation as it is. -/
theorem Pending.step {op : Op ι κ α} (hst : Pending i k st₁ o₁ st) (hop : op.Quiet i k st)
    (h : step op st = some st') : Pending i k st₁ o₁ st' := by
  obtain ⟨o, hk, hslices, hlength, hbacked⟩ := hst.reservation
  have hvalid := hst.valid.of_step h
  rcases hop with ⟨j, offset, bytes, rfl⟩ | ⟨hi, hdrop, hwrites⟩
  · obtain ⟨⟨i', o'⟩, hk', h⟩ := Option.bind_eq_some_iff.1 h
    obtain ⟨rfl, rfl⟩ := Prod.mk.inj (Option.some.inj (hk.symm.trans hk'))
    obtain ⟨⟨o', b, w⟩, hwrite, rfl⟩ := Option.map_eq_some_iff.1 h
    obtain ⟨rfl, hrewrites⟩ := Outstanding.write_spec (hst.valid.buffer i) hwrite
    have hbuffer : ((st.setBuffer i b st.world).setReservation k (some (i, o'))).buffers i = b := by
      rw [buffers_setReservation, buffers_setBuffer_self]
    refine ⟨hvalid, ⟨o', reservations_setReservation_self _ k _, hrewrites.slices.trans hslices,
      hrewrites.length.trans hlength, ?_⟩, ?_, ?_⟩
    · rw [hbuffer]
      exact hrewrites.backed hbacked
    · have hcontent := congrArg (fun b ↦ contentOf st.world b.slices.toList) hbuffer
      exact hcontent.trans ((hrewrites.contentOf st.world).trans hst.content)
    · rw [hbuffer, hrewrites.bufferLength, hst.length]
  · have hbuffer := buffers_of_step h hi
    refine ⟨hvalid, ⟨o, reservations_of_step hk h hi hdrop, hslices, hlength, by rwa [hbuffer]⟩, ?_,
      ?_⟩
    · exact (content_of_step hst.valid h hi hwrites).trans hst.content
    · rw [hbuffer, hst.length]

theorem Pending.run {ops : List (Op ι κ α)} (hst : Pending i k st₁ o₁ st)
    (hrun : Machine.run Pool.step ops st = some st')
    (hquiet : Machine.Meets Pool.step (Op.Quiet i k) ops st) : Pending i k st₁ o₁ st' :=
  Machine.invariant_of_meets (fun _ _ _ hst hop h ↦ hst.step hop h) hrun hquiet hst

/-- A step that makes a reservation. -/
theorem Valid.pending_of_reserves (hst : st.Valid) {o : Outstanding α} {owner : SlicesOwner α}
    {b : OwnedImpl α} {w : World α} (howner : o.owner = some owner)
    (hst₁ : ((st.setBuffer i b w).setReservation k (some (i, o))).Valid)
    (h : Reserves (st.buffers i) st.world o.slices owner b w) :
    Pending i k st o ((st.setBuffer i b w).setReservation k (some (i, o))) := by
  have hbuffer : ((st.setBuffer i b w).setReservation k (some (i, o))).buffers i = b := by
    rw [buffers_setReservation, buffers_setBuffer_self]
  refine ⟨hst₁, ⟨o, reservations_setReservation_self _ k _, rfl, rfl, ?_⟩, ?_, ?_⟩
  · rw [hbuffer, Outstanding.storages_of_owner howner]
    exact h.backed
  · rw [content, hbuffer, h.toList]
    show contentOf w (kept _) = contentOf st.world _
    rw [contentOf_kept (hst.buffer i)]
    exact contentOf_congr h.evolves.fragments _
  · rw [hbuffer, h.length]

/-- A commit finds what the steps before it have written. -/
theorem Pending.commit (hst : Pending i k st₁ o₁ st) (hlength : o₁.length = totalLen o₁.slices)
    (hne : o₁.slices ≠ []) {n : ℕ} (hn : n ≤ o₁.length) :
    ∃ st', Pool.step (.commit k n) st = some st' ∧
      st'.content i = st₁.content i ++ (st.written k).flatten.take n ∧
      (st'.buffers i).length = (st₁.buffers i).length + .ofNat n ∧
      (n = 0 → st'.buffers i = st.buffers i) := by
  obtain ⟨o, hk, hslices, hlength', hbacked⟩ := hst.reservation
  obtain ⟨owner, howner⟩ := hbacked.exists_owner (by rwa [hslices])
  have hwf := hst.valid.owners k i o owner hk howner
  have hstorages := Outstanding.storages_of_owner howner
  rw [hstorages] at hbacked
  obtain ⟨b, w, hcommit, hlen, hcontent⟩ := OwnedImpl.commit_backed (hst.valid.buffer i) hbacked
    (n := n) (by rw [hslices]; omega) st.world
  have hbuffer : ((st.setBuffer i b w).setReservation k none).buffers i = b := by
    rw [buffers_setReservation, buffers_setBuffer_self]
  have hstep : Pool.step (.commit k n) st = some ((st.setBuffer i b w).setReservation k none) := by
    simp only [Pool.step, hk, Option.bind_some, if_pos (hn.trans_eq hlength'.symm), howner, hcommit,
      Option.map_some]
  refine ⟨_, hstep, ?_, ?_, fun h0 ↦ ?_⟩
  · rw [← hst.content, Pool.content, hbuffer, written_eq hk, Outstanding.written, hstorages]
    refine (contentOf_congr ?_ _).trans hcontent
    exact (OwnedImpl.commit_evolves (hst.valid.buffer i) hwf hcommit).2.fragments
  · rw [hbuffer, hlen, hst.length]
  · rw [hbuffer]
    rw [OwnedImpl.commit, if_pos h0] at hcommit
    exact (Prod.mk.inj (Option.some.inj hcommit)).1.symm

theorem Pending.drop (hst : Pending i k st₁ o₁ st) (hne : o₁.slices ≠ []) :
    ∃ st', Pool.step (.dropReservation k) st = some st' ∧ st'.buffers i = st.buffers i ∧
      st'.content i = st₁.content i ∧ (st'.buffers i).length = (st₁.buffers i).length := by
  obtain ⟨o, hk, hslices, -, hbacked⟩ := hst.reservation
  obtain ⟨owner, howner⟩ := hbacked.exists_owner (by rwa [hslices])
  have hwf := hst.valid.owners k i o owner hk howner
  have hstep : Pool.step (.dropReservation k) st =
      some { st.setReservation k none with world := owner.destroy st.world } := by
    simp only [Pool.step, hk, Option.bind_some, howner, Option.map_some]
  refine ⟨_, hstep, rfl, ?_, hst.length⟩
  rw [← hst.content]
  exact contentOf_congr (SlicesOwner.destroy_evolves hwf st.world).fragments _

theorem Pending.write (hst : Pending i k st₁ o₁ st) {j offset : ℕ} {bytes : List α}
    {slice : RawSlice}
    (hj : o₁.slices[j]? = some slice) (hbytes : offset + bytes.length ≤ slice.len) :
    ∃ st', Pool.step (.write k j offset bytes) st = some st' ∧
      st'.written k = (st.written k).modify j (Memory.overwrite offset bytes) := by
  obtain ⟨o, hk, hslices, -, hbacked⟩ := hst.reservation
  rw [← hslices] at hj
  obtain ⟨o', b, hwrite, hwritten⟩ :=
    Outstanding.write_written (hst.valid.buffer i) hbacked hj hbytes st.world
  have hstep : Pool.step (.write k j offset bytes) st =
      some ((st.setBuffer i b st.world).setReservation k (some (i, o'))) := by
    simp only [Pool.step, hk, Option.bind_some, hwrite, Option.map_some]
  refine ⟨_, hstep, ?_⟩
  rw [written_eq (reservations_setReservation_self _ k _), written_eq hk, buffers_setReservation,
    buffers_setBuffer_self]
  exact hwritten

/-- All that the caller may do is possible. -/
theorem Pending.committable (hst : Pending i k st₁ o₁ st)
    (hlength : o₁.length = totalLen o₁.slices) (hne : o₁.slices ≠ []) :
    st.Committable i k o₁ (st₁.content i) (st₁.buffers i).length where
  lengths := by
    obtain ⟨o, hk, hslices, -, hbacked⟩ := hst.reservation
    rw [written_eq hk, ← hslices]
    exact Outstanding.map_length_written (hst.valid.buffer i) hbacked st.world
  write _ _ _ _ hj hbytes := hst.write hj hbytes
  commit _ hn := hst.commit hlength hne hn
  drop := hst.drop hne

/-- **Reserve, then commit, appends what was written.** A reservation can be made in every reachable
state. It changes neither the content of the buffer nor its length, and it lends memory in which
there is no data. As long as the buffer is left alone, a commit of `n` bytes appends the first `n`
bytes that are behind the slices of the reservation. -/
theorem commit_appends_written {fragments fresh : ℕ → ℕ → α}
    (hst : Machine.Reachable Pool.step (init fragments fresh) st) (i : ι)
    (hk : st.reservations k = none) {request : Request} (hrequest : request.Allowed) :
    ∃ st₁ o, Pool.step (request.op i k) st = some st₁ ∧ st₁.reservations k = some (i, o) ∧
      st₁.content i = st.content i ∧ (st₁.buffers i).length = (st.buffers i).length ∧
      request.Grants o ∧ o.length = totalLen o.slices ∧ (∀ slice ∈ o.slices, st₁.Lent o slice) ∧
      ∀ ops st₂, Machine.run Pool.step ops st₁ = some st₂ →
        Machine.Meets Pool.step (Op.Quiet i k) ops st₁ →
        st₂.Committable i k o (st.content i) (st.buffers i).length := by
  have hvalid := valid_of_reachable hst
  obtain ⟨o, owner, b, w, hstep, howner, hreserves, hlength, hgrants⟩ :=
    st.exists_reserves i hk hrequest
  have hpending := hvalid.pending_of_reserves howner (hvalid.of_step hstep) hreserves
  have hk₁ : ((st.setBuffer i b w).setReservation k (some (i, o))).reservations k = some (i, o) :=
    reservations_setReservation_self _ k _
  obtain ⟨o', hk', -, -, hbacked⟩ := hpending.reservation
  obtain rfl : o = o' := (Prod.mk.inj (Option.some.inj (hk₁.symm.trans hk'))).2
  refine ⟨_, o, hstep, hk₁, hpending.content, hpending.length, hgrants, hlength,
    fun slice hslice ↦ hpending.valid.lent hk₁ hbacked hslice, fun ops st₂ hrun hquiet ↦ ?_⟩
  exact (hpending.run hrun hquiet).committable hlength hgrants.slices_ne_nil

end Pending

/-- Three bytes, then a reservation of two. -/
theorem commit_appends_written_threeBytes :
    ∃ st st₁ o, Machine.run Pool.step [.add 0 [1, 2, 3]]
        (init (fun _ _ ↦ 0) fun _ _ ↦ 0 : Pool (Fin 1) (Fin 1) ℕ) = some st ∧
      Pool.step (.reserveWithMaxLength 0 0 2) st = some st₁ ∧ o.length ≤ reserveLimit 2 ∧
      st₁.Committable 0 0 o [1, 2, 3] 3 := by
  have hend : (Machine.run Pool.step [.add 0 [1, 2, 3]]
      (init (fun _ _ ↦ 0) fun _ _ ↦ 0 : Pool (Fin 1) (Fin 1) ℕ)).map (fun st ↦
        (st.content 0, (st.buffers 0).length, (st.reservations 0).isNone)) =
      some ([1, 2, 3], 3, true) := by decide
  obtain ⟨st, hrun, hst⟩ := Option.map_eq_some_iff.1 hend
  simp only [Prod.mk.injEq] at hst
  obtain ⟨hcontent, hlen, hk⟩ := hst
  obtain ⟨st₁, o, hstep, -, -, -, hgrants, -, -, hcommittable⟩ :=
    commit_appends_written ⟨_, hrun⟩ 0 (Option.isNone_iff_eq_none.1 hk)
      (show (Request.withMaxLength 2).Allowed from Nat.zero_lt_succ 1)
  refine ⟨st, st₁, o, hrun, hstep, hgrants.2.2, ?_⟩
  rw [← hcontent, ← hlen]
  exact hcommittable [] st₁ rfl trivial

end Pool

end TcpServer.Buffer
