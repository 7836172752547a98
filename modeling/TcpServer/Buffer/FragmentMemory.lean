import TcpServer.Buffer.Pool

/-!
# The memory of fragments

A fragment is memory of the caller's, handed in to be read. A slice over it has no room behind its
data, and that is what keeps `append`, `reserve` and `commit` from writing to it: every step but a
`prepend` of a string leaves the memory alone (`Valid.steps_of_ne_prepend`).

`Slice::prepend` asks neither whether the slice is mutable nor whose memory is in front of the data.
Once a fragment has been drained in part there is space, so the string that is prepended to the
buffer goes there (`OwnedImpl.prepend_writes_fragment`). This is the only way to write to a
fragment, so the memory is safe in exactly the runs that keep clear of it
(`fragments_never_written`).

Which fragment a step writes to can be said before the step (`Op.WritesTo`): it prepends something
to a buffer whose first slice is over that fragment and has data removed at its front. Both
directions are about one step in a valid state; over a run they give that the memory is as it was at
the start as long as every step keeps clear, and that the first step that does not changes some byte
if the bytes are others.
-/

namespace TcpServer.Buffer

variable {α : Type*}

/-- A string is prepended to a buffer whose first slice is immutable and partly drained. -/
def Op.PrependsToDrained {ι κ : Type*} (op : Op ι κ α) (st : Pool ι κ α) : Prop :=
  match op with
  | .prepend i data =>
    data ≠ [] ∧ (st.buffers i).slices.front.isMutable = false ∧
      (st.buffers i).slices.front.dataSize ≠ 0 ∧ (st.buffers i).slices.front.data ≠ 0
  | _ => False

/-- The slice is over the fragment `f`. -/
def Op.WritesTo {ι κ : Type*} (op : Op ι κ α) (st : Pool ι κ α) (f : ℕ) : Prop :=
  match op with
  | .prepend i data =>
    data ≠ [] ∧ (st.buffers i).slices.front.base = some (.fragment f) ∧
      (st.buffers i).slices.front.dataSize ≠ 0 ∧ (st.buffers i).slices.front.data ≠ 0
  | _ => False

/-- A step that writes to a fragment prepends to a drained one. -/
theorem Op.WritesTo.prependsToDrained {ι κ : Type*} {op : Op ι κ α} {st : Pool ι κ α} {f : ℕ}
    (h : op.WritesTo st f) : op.PrependsToDrained st := by
  cases op with
  | prepend i data =>
    obtain ⟨hne, hbase, hrest⟩ := h
    refine ⟨hne, ?_, hrest⟩
    rw [Slice.isMutable, Slice.base_eq_fragment_iff.1 hbase]
  | _ => exact h.elim

/-- The bytes go in front of the data, the last of them directly so. -/
theorem Slice.prepend_external {s : Slice α} {f : ℕ} (hs : s.backing = .external f)
    (hsize : s.dataSize ≠ 0) (hdata : s.data ≠ 0) {d : List α} (hd : d ≠ []) (w : World α) :
    (s.prepend d w).2.2.fragments f (s.data - 1) = d.getLast hd := by
  have hpos : 0 < d.length := List.length_pos_of_ne_nil hd
  have hlen : (d.drop (d.length - min d.length s.data)).length = min d.length s.data := by
    rw [List.length_drop]
    omega
  have hoffset : s.data - 1 = s.data - min d.length s.data + (min d.length s.data - 1) := by omega
  rw [prepend, if_neg hsize, if_neg hdata]
  simp only [store, hs]
  rw [Function.update_self, hoffset, Memory.write_add _ _ (by omega), List.getElem_drop,
    List.getLast_eq_getElem]
  congr 1
  omega

theorem OwnedImpl.prependLoop_fragments {fuel : ℕ} {d : List α} {b b' : OwnedImpl α}
    {w w' : World α}
    (h : prependLoop fuel true d b w = some (b', w')) : w'.fragments = w.fragments :=
  (prependLoop_spec h).slices.evolves.fragments

/-- The defect: the end of the string is written to the fragment. -/
theorem OwnedImpl.prepend_writes_fragment {b b' : OwnedImpl α} {f : ℕ}
    (hfront : b.slices.front.backing = .external f) (hsize : b.slices.front.dataSize ≠ 0)
    (hdata : b.slices.front.data ≠ 0) {d : List α} (hd : d ≠ []) {w w' : World α}
    (h : b.prepend d w = some (b', w')) :
    w'.fragments f (b.slices.front.data - 1) = d.getLast hd := by
  obtain ⟨x, xs, rfl⟩ := List.exists_cons_of_ne_nil hd
  have hne : b.slices.isEmpty = false := by
    rw [← Bool.not_eq_true, SliceDeque.isEmpty_iff]
    intro hnil
    rw [SliceDeque.front_eq, hnil] at hsize
    exact hsize rfl
  rw [prepend, hne, List.length_cons, prependLoop] at h
  simp only [Bool.false_eq_true, if_false] at h
  rw [prependLoop_fragments h]
  exact Slice.prepend_external hfront hsize hdata hd w

namespace Pool

variable {ι κ : Type*} [Fintype ι] [Fintype κ] [DecidableEq ι] [DecidableEq κ] {st st' : Pool ι κ α}

/-- Only a `prepend` of a string writes to a fragment, and only to the one it begins with. -/
theorem Valid.fragment_of_step {op : Op ι κ α} (hst : st.Valid) {f : ℕ} (hop : ¬op.WritesTo st f)
    (h : step op st = some st') : st'.world.fragments f = st.world.fragments f := by
  by_cases hprepends : ∃ i data, op = .prepend i data
  · obtain ⟨i, data, rfl⟩ := hprepends
    obtain ⟨b, w, hprepend, rfl⟩ := prepend_of_step h
    show w.fragments f = st.world.fragments f
    rcases OwnedImpl.prepend_spec (hst.buffer i) hprepend with ⟨-, hnew⟩ |
      ⟨s, l, s', w₁, d₁, d₂, hl, -, -, hover, hsafe, -, -, hnew⟩
    · rw [hnew.slices.evolves.fragments]
    · rw [hnew.evolves.fragments]
      by_cases hbase : s.base = some (.fragment f)
      · rw [hsafe]
        intro g hg
        by_contra hcon
        push Not at hcon
        obtain ⟨hsize, hdata, hne⟩ := hcon
        refine hop ⟨hne, ?_⟩
        rw [SliceDeque.front_of_cons hl]
        exact ⟨hbase, hsize, hdata⟩
      · exact hover.fragments f hbase
  · rw [(hst.steps_of_ne_prepend (fun i data heq ↦ hprepends ⟨i, data, heq⟩) h).evolves.fragments]

/-- A step that keeps clear of partly drained fragments leaves their memory alone. -/
theorem Valid.fragments_of_step {op : Op ι κ α} (hst : st.Valid) (hop : ¬op.PrependsToDrained st)
    (h : step op st = some st') : st'.world.fragments = st.world.fragments :=
  funext fun _ ↦ hst.fragment_of_step (fun hwrites ↦ hop hwrites.prependsToDrained) h

/-- A step that does not writes to a fragment. -/
theorem Valid.writes_fragment {op : Op ι κ α} (hst : st.Valid) (hop : op.PrependsToDrained st)
    (h : step op st = some st') :
    ∃ i f data, ∃ hdata : data ≠ [], op = .prepend i data ∧
      (st.buffers i).slices.front.base = some (.fragment f) ∧
      st'.world.fragments f ((st.buffers i).slices.front.data - 1) = data.getLast hdata := by
  cases op with
  | prepend i data =>
    obtain ⟨hne, himmutable, hsize, hdata⟩ := hop
    obtain ⟨s, l, hl⟩ : ∃ s l, (st.buffers i).slices.toList = s :: l := by
      refine List.exists_cons_of_ne_nil fun hnil ↦ hsize ?_
      rw [SliceDeque.front_eq, hnil]
      rfl
    have hs : s.WF := hst.buffer i s (by simp [hl])
    have hfront := SliceDeque.front_of_cons hl
    -- a slice with data that is not mutable is over a fragment
    obtain ⟨f, hf⟩ : ∃ f, s.backing = .external f := by
      rw [hfront] at himmutable hsize
      cases hb : s.backing with
      | null =>
        have := hs.null (Slice.base_eq_none_iff.2 hb)
        have := hs.reservable_le
        rw [Slice.dataSize] at hsize
        omega
      | owned storage => simp [Slice.isMutable, hb] at himmutable
      | external f => exact ⟨f, rfl⟩
    obtain ⟨b, w, hprepend, rfl⟩ := prepend_of_step h
    refine ⟨i, f, data, hne, rfl, ?_, ?_⟩
    · rw [hfront]
      exact Slice.base_eq_fragment_iff.2 hf
    · exact OwnedImpl.prepend_writes_fragment (by rw [hfront, hf]) hsize hdata hne hprepend
  | _ => exact hop.elim

/-- **Fragments are written to only through `prepend`.** A run none of whose steps prepends a string
to a buffer that begins with a partly drained fragment leaves the memory of all fragments as it was,
and a step that does so writes to it. -/
theorem fragments_never_written {fragments fresh : ℕ → ℕ → α} {ops : List (Op ι κ α)}
    (hrun : Machine.run step ops (init fragments fresh) = some st) :
    (Machine.Meets step (fun op st ↦ ¬op.PrependsToDrained st) ops (init fragments fresh) →
      st.world.fragments = fragments) ∧
    ∀ op st', op.PrependsToDrained st → step op st = some st' →
      ∃ i f data, ∃ hdata : data ≠ [], op = .prepend i data ∧
        (st.buffers i).slices.front.base = some (.fragment f) ∧
        st'.world.fragments f ((st.buffers i).slices.front.data - 1) = data.getLast hdata := by
  refine ⟨fun hmeets ↦ ?_, fun op st' hop h ↦
    (valid_of_reachable ⟨ops, hrun⟩).writes_fragment hop h⟩
  refine (Machine.invariant_of_meets (I := fun st ↦ st.Valid ∧ st.world.fragments = fragments)
    (fun op s s' hs hop hstep ↦ ⟨?_, ?_⟩) hrun hmeets ⟨valid_init fragments fresh, rfl⟩).2
  · exact hs.1.of_step hstep
  · exact (hs.1.fragments_of_step hop hstep).trans hs.2

end Pool

/-- A fragment of two bytes, drained by one. -/
def drainedFragment {ι κ : Type} (i : ι) : List (Op ι κ ℕ) :=
  [.addBufferFragment i ⟨0, 2⟩, .drain i 1]

/-- With one byte drained, a step may write to the fragment, and prepending a byte does. -/
theorem Pool.fragments_never_written_drainedFragment :
    ∃ st : Pool (Fin 1) (Fin 1) ℕ,
      Machine.run step (drainedFragment 0) (init (fun _ n ↦ n) fun _ _ ↦ 0) = some st ∧
      (st.world.fragments = fun _ n ↦ n) ∧
      ∀ st', step (.prepend 0 [9]) st = some st' → st'.world.fragments ≠ st.world.fragments := by
  have hend : (Machine.run step (drainedFragment 0)
      (init (fun _ n ↦ n) fun _ _ ↦ 0 : Pool (Fin 1) (Fin 1) ℕ)).map
      (fun st ↦ ((st.buffers 0).slices.front.isMutable, (st.buffers 0).slices.front.dataSize,
        (st.buffers 0).slices.front.data)) = some (false, 1, 1) := by decide
  obtain ⟨st, hrun, hfront⟩ := Option.map_eq_some_iff.1 hend
  simp only [Prod.mk.injEq] at hfront
  obtain ⟨himmutable, hsize, hdata⟩ := hfront
  obtain ⟨hsafe, hwrites⟩ := fragments_never_written hrun
  have hmemory := hsafe ⟨fun h ↦ h, fun _ _ ↦ ⟨fun h ↦ h, fun _ _ ↦ trivial⟩⟩
  refine ⟨st, hrun, hmemory, fun st' hstep heq ↦ ?_⟩
  obtain ⟨i, f, data, hne, hop, -, hbyte⟩ := hwrites (.prepend 0 [9]) st'
    ⟨List.cons_ne_nil _ _, himmutable, by omega, by omega⟩ hstep
  obtain ⟨rfl, rfl⟩ := Op.prepend.inj hop
  rw [heq, hmemory, hdata] at hbyte
  exact absurd hbyte (show (0 : ℕ) ≠ 9 by decide)

/-- Prepending to it changes the drained byte. -/
theorem prepend_changes_fragment :
    ∃ st : Pool (Fin 1) (Fin 1) ℕ, Machine.run Pool.step (drainedFragment 0 ++ [.prepend 0 [9]])
        (Pool.init (fun _ n ↦ n) fun _ _ ↦ 0) = some st ∧
      st.world.fragments 0 0 = 9 ∧ st.world.fragments ≠ fun _ n ↦ n := by
  have hend : (Machine.run Pool.step (drainedFragment 0 ++ [.prepend 0 [9]])
      (Pool.init (fun _ n ↦ n) fun _ _ ↦ 0 : Pool (Fin 1) (Fin 1) ℕ)).map
      (fun st ↦ st.world.fragments 0 0) = some 9 := by
    decide
  obtain ⟨st, hrun, h9⟩ := Option.map_eq_some_iff.1 hend
  refine ⟨st, hrun, h9, fun heq ↦ ?_⟩
  rw [heq] at h9
  exact absurd h9 (by decide)

end TcpServer.Buffer
