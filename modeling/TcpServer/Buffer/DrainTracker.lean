import TcpServer.Buffer.Refinement

/-!
# Where a tracker is and where its byte is

`addDrainTracker` attaches a tracker to the last slice, on behalf of the last byte of the buffer.
The tracker is called when its slice is released, so it must not fall behind the byte: as long as
the byte is in a buffer, the slice that carries the tracker is in the same buffer and ends behind
the byte (`Covers`).

* `Op.carry` says where a byte is after a call, for a byte string in place of the buffer
  (`Strings.Step.getElem?_carry`).
* Most calls keep the byte covered, whatever they do to the slices. Three need not: `move` of a
  length copies a part of a slice and leaves its trackers behind, `linearize` copies the bytes of
  several slices and releases these, and a reservation releases the slices without data at the end.
  `Op.KeepsTracker` is the condition that they do not do so to the slice that carries the tracker.
* `Pool.not_called_of_run` is what therefore holds of every run that meets it.
-/

namespace TcpServer.Buffer

variable {α : Type*} {t : DrainTracker}

/-! ### The slices that carry a tracker

The slices that carry the tracker are followed as a list of their ends. A byte is covered if one of
them ends behind it, wherever that slice begins.
-/

/-- The slices that carry `t`, each with the number of bytes up to its end, if there are `m` in
front of the list, and with its own size. -/
def carriers (t : DrainTracker) : ℕ → List (Slice α) → List (ℕ × ℕ)
  | _, [] => []
  | m, s :: l =>
    (if t ∈ s.drainTrackers then [(m + s.dataSize, s.dataSize)] else []) ++
      carriers t (m + s.dataSize) l

/-- A slice that carries `t` ends behind byte `p`. -/
def Covers (t : DrainTracker) (p : ℕ) (l : List (Slice α)) : Prop := ∃ c ∈ carriers t 0 l, p < c.1

/-- A carrier is the first slice or one further on. -/
theorem mem_carriers_cons {m : ℕ} {s : Slice α} {l : List (Slice α)} {c : ℕ × ℕ} :
    c ∈ carriers t m (s :: l) ↔
      t ∈ s.drainTrackers ∧ c = (m + s.dataSize, s.dataSize) ∨
        c ∈ carriers t (m + s.dataSize) l := by
  rw [carriers, List.mem_append]
  split_ifs with ht <;> simp [ht]

theorem carriers_append (m : ℕ) (l l' : List (Slice α)) :
    carriers t m (l ++ l') = carriers t m l ++ carriers t (m + dataSizes l) l' := by
  induction l generalizing m with
  | nil => rfl
  | cons s l ih => rw [List.cons_append, carriers, carriers, ih, List.append_assoc, dataSizes_cons,
      Nat.add_assoc]

/-- With more bytes in front the carriers end later. -/
theorem carriers_add (m k : ℕ) (l : List (Slice α)) :
    carriers t (m + k) l = (carriers t m l).map fun c ↦ (c.1 + k, c.2) := by
  induction l generalizing m with
  | nil => rfl
  | cons s l ih =>
    rw [carriers, carriers, List.map_append, Nat.add_right_comm, ih]
    split_ifs <;> rfl

theorem snd_le_of_mem_carriers {m : ℕ} {l : List (Slice α)} {c : ℕ × ℕ} (hc : c ∈ carriers t m l) :
    c.2 ≤ c.1 := by
  induction l generalizing m with
  | nil => exact absurd hc List.not_mem_nil
  | cons s l ih =>
    rcases mem_carriers_cons.1 hc with ⟨-, rfl⟩ | hc
    · exact Nat.le_add_left _ _
    · exact ih hc

/-- A covered byte has its tracker with it. -/
theorem Covers.exists_carrier {p : ℕ} {l : List (Slice α)} (h : Covers t p l) :
    ∃ s ∈ l, t ∈ s.drainTrackers := by
  obtain ⟨c, hc, -⟩ := h
  suffices hany : ∀ m, c ∈ carriers t m l → ∃ s ∈ l, t ∈ s.drainTrackers from hany 0 hc
  clear hc
  induction l with
  | nil => exact fun _ hc ↦ absurd hc List.not_mem_nil
  | cons s l ih =>
    intro m hc
    rcases mem_carriers_cons.1 hc with ⟨ht, -⟩ | hc
    · exact ⟨s, List.mem_cons_self, ht⟩
    · obtain ⟨u, hu, ht⟩ := ih _ hc
      exact ⟨u, List.mem_cons_of_mem s hu, ht⟩

/-- No carrier ends in front of the end of the first slice. -/
theorem le_fst_of_mem_carriers {s : Slice α} {l l' : List (Slice α)} {c : ℕ × ℕ} (hl : l = s :: l')
    (hc : c ∈ carriers t 0 l) : s.dataSize ≤ c.1 := by
  rw [hl, mem_carriers_cons] at hc
  rcases hc with ⟨-, rfl⟩ | hc
  · exact Nat.le_add_left _ _
  · rw [carriers_add] at hc
    obtain ⟨c, -, rfl⟩ := List.mem_map.1 hc
    exact Nat.le_add_left _ _

/-- More slices in front. -/
theorem Covers.append_left {p : ℕ} {l r : List (Slice α)} (hp : Covers t p l) :
    Covers t (dataSizes r + p) (r ++ l) := by
  obtain ⟨c, hc, hlt⟩ := hp
  refine ⟨(c.1 + dataSizes r, c.2), ?_, by dsimp only; omega⟩
  rw [carriers_append, carriers_add]
  exact List.mem_append_right _ (List.mem_map.2 ⟨c, hc, rfl⟩)

/-! ### Lists whose carriers end no earlier

Most operations keep the carriers and put something in front or behind. What they have in common is
that each carrier of the old list has one in the new list that ends no earlier.
-/

/-- Every slice of `l` that carries `t` has a counterpart in `l'` that ends no earlier, counted with
`m` bytes in front of `l` and `m'` in front of `l'`. -/
def Reaches (t : DrainTracker) (m : ℕ) (l : List (Slice α)) (m' : ℕ) (l' : List (Slice α)) : Prop :=
  ∀ c ∈ carriers t m l, ∃ c' ∈ carriers t m' l', c.1 ≤ c'.1

namespace Reaches

variable {m m' m'' k : ℕ} {l l' l'' : List (Slice α)}

theorem refl (m : ℕ) (l : List (Slice α)) : Reaches t m l m l := fun c hc ↦ ⟨c, hc, Nat.le_refl _⟩

theorem trans (h : Reaches t m l m' l') (h' : Reaches t m' l' m'' l'') : Reaches t m l m'' l'' := by
  intro c hc
  obtain ⟨c', hc', hle⟩ := h c hc
  obtain ⟨c'', hc'', hle'⟩ := h' c' hc'
  exact ⟨c'', hc'', hle.trans hle'⟩

/-- More slices behind. -/
theorem append_right (m : ℕ) (l l' : List (Slice α)) : Reaches t m l m (l ++ l') := by
  intro c hc
  refine ⟨c, ?_, Nat.le_refl _⟩
  rw [carriers_append]
  exact List.mem_append_left _ hc

/-- The same slices in front. -/
theorem append_left (r : List (Slice α)) (h : Reaches t (m + dataSizes r) l (m + dataSizes r) l') :
    Reaches t m (r ++ l) m (r ++ l') := by
  intro c hc
  rw [carriers_append] at hc ⊢
  rcases List.mem_append.1 hc with hc | hc
  · exact ⟨c, List.mem_append_left _ hc, Nat.le_refl _⟩
  · obtain ⟨c', hc', hle⟩ := h c hc
    exact ⟨c', List.mem_append_right _ hc', hle⟩

/-- The same slices behind, no less far off. -/
theorem append (r : List (Slice α)) (h : Reaches t m l m' l')
    (hle : m + dataSizes l ≤ m' + dataSizes l') : Reaches t m (l ++ r) m' (l' ++ r) := by
  intro c hc
  rw [carriers_append] at hc ⊢
  rcases List.mem_append.1 hc with hc | hc
  · obtain ⟨c', hc', hle'⟩ := h c hc
    exact ⟨c', List.mem_append_left _ hc', hle'⟩
  · obtain ⟨k, hk⟩ := Nat.exists_eq_add_of_le hle
    refine ⟨(c.1 + k, c.2), List.mem_append_right _ ?_, Nat.le_add_right _ _⟩
    rw [hk, carriers_add]
    exact List.mem_map.2 ⟨c, hc, rfl⟩

/-- One slice that becomes no smaller and keeps its trackers. -/
theorem single {s s' : Slice α} (hsize : m + s.dataSize ≤ m' + s'.dataSize)
    (htrackers : s.drainTrackers ⊆ s'.drainTrackers) : Reaches t m [s] m' [s'] := by
  intro c hc
  rcases mem_carriers_cons.1 hc with ⟨ht, rfl⟩ | hc
  · exact ⟨(m' + s'.dataSize, s'.dataSize), mem_carriers_cons.2 (.inl ⟨htrackers ht, rfl⟩), hsize⟩
  · exact absurd hc List.not_mem_nil

/-- A byte stays covered, with as many more bytes in front of it. -/
theorem covers (h : Reaches t k l 0 l') {p : ℕ} (hp : Covers t p l) : Covers t (p + k) l' := by
  obtain ⟨c, hc, hlt⟩ := hp
  obtain ⟨c', hc', hle⟩ := h (c.1 + k, c.2) (by
    have hadd := carriers_add (t := t) 0 k l
    rw [Nat.zero_add] at hadd
    rw [hadd]
    exact List.mem_map.2 ⟨c, hc, rfl⟩)
  exact ⟨c', hc', by omega⟩

end Reaches

/-! ### What the operations do to the carriers

One lemma for each way in which a list of slices changes: data at the end, new slices in front,
whole slices moved, slices drained or removed.
-/

theorem Extends.reaches {account : Option ℕ} {held : Multiset ℕ} {d : List α}
    {l l' : List (Slice α)}
    {w w' : World α} (h : Extends account held d l w l' w') (m : ℕ) : Reaches t m l m l' := by
  induction h with
  | refl l w => exact .refl m l
  | fill l w hs =>
    refine .append_left l (.single ?_ ?_)
    · rw [hs.dataSize]
      omega
    · rw [hs.drainTrackers]
      exact List.Subset.refl _
  | create n l w => exact .append_right m l _
  | adopt storage l w _ _ => exact .append_right m l _
  | trans _ _ ih ih' => exact ih.trans ih'

theorem Precedes.reaches {account : Option ℕ} {d : List α} {l l' : List (Slice α)} {w w' : World α}
    (h : Precedes account d l w l' w') (m : ℕ) : Reaches t (m + d.length) l m l' := by
  induction h generalizing m with
  | refl l w => exact .refl m l
  | create n l w hs =>
    intro c hc
    refine ⟨c, mem_carriers_cons.2 (.inr ?_), Nat.le_refl _⟩
    rwa [hs.dataSize]
  | @trans d d' _ _ _ _ _ _ _ _ ih ih' =>
    have hfirst := ih (m + d'.length)
    rw [Nat.add_assoc, ← List.length_append] at hfirst
    exact hfirst.trans (ih' m)

/-- What was moved whole ends where it did. -/
theorem Takes.reaches {account : Option ℕ} {s : Slice α} {l l' : List (Slice α)} {w w' : World α}
    (h : Takes account s l w l' w') (hs : s.WF) (m : ℕ) : Reaches t m (l ++ [s]) m l' := by
  cases h with
  | @coalesce l u u' _ hmut happ =>
    rw [List.append_assoc]
    refine .append_left l fun c hc ↦ ?_
    have hsize : (s.transferDrainTrackersTo u').2.dataSize = u.dataSize + s.dataSize := by
      show u'.dataSize = _
      rw [happ.dataSize, hs.length_bytes]
    have htrackers : (s.transferDrainTrackersTo u').2.drainTrackers =
        u.drainTrackers ++ s.drainTrackers := by
      show u'.drainTrackers ++ s.drainTrackers = _
      rw [happ.drainTrackers]
    have hmem (ht : t ∈ u.drainTrackers ++ s.drainTrackers) :
        (m + Buffer.dataSizes l + (u.dataSize + s.dataSize), u.dataSize + s.dataSize) ∈
          carriers t (m + Buffer.dataSizes l) [(s.transferDrainTrackersTo u').2] := by
      rw [mem_carriers_cons, htrackers, hsize]
      exact .inl ⟨ht, rfl⟩
    rcases mem_carriers_cons.1 hc with ⟨ht, rfl⟩ | hc
    · exact ⟨_, hmem (List.mem_append_left _ ht), by dsimp only; omega⟩
    rcases mem_carriers_cons.1 hc with ⟨ht, rfl⟩ | hc
    · exact ⟨_, hmem (List.mem_append_right _ ht), by dsimp only; omega⟩
    · exact absurd hc List.not_mem_nil
  | own =>
    refine .append_left l (.single ?_ ?_)
    · rw [Slice.dataSize_maybeChargeAccount]
    · rw [Slice.maybeChargeAccount]
      split_ifs <;> exact List.Subset.refl _

/-- A drain of no more than the bytes up to the end of a carrier leaves it. -/
theorem mem_carriers_left {m n : ℕ} {l : List (Slice α)} (hl : ∀ s ∈ l, s.WF) {c : ℕ × ℕ}
    (hc : c ∈ carriers t m l) (hn : m + n < c.1) :
    ∃ c' ∈ carriers t (m + n) (left n l), c'.1 = c.1 := by
  induction l generalizing m n with
  | nil => exact absurd hc List.not_mem_nil
  | cons s l ih =>
    have hs := hl s List.mem_cons_self
    rw [left]
    split_ifs with hle h0
    · rcases mem_carriers_cons.1 hc with ⟨-, rfl⟩ | hc
      · dsimp only at hn
        omega
      · obtain ⟨c', hc', heq⟩ := ih (m := m + s.dataSize) (n := n - s.dataSize)
          (fun u hu ↦ hl u (List.mem_cons_of_mem s hu)) hc (by omega)
        refine ⟨c', ?_, heq⟩
        rwa [Nat.add_assoc, Nat.add_sub_cancel' hle] at hc'
    · rw [h0, Nat.add_zero]
      exact ⟨c, hc, rfl⟩
    · obtain ⟨-, hsame, hsize, -⟩ := hs.drain_spec (by omega : n < s.dataSize)
      have hend : m + n + (s.drain n).dataSize = m + s.dataSize := by omega
      rcases mem_carriers_cons.1 hc with ⟨ht, rfl⟩ | hc
      · exact ⟨_, mem_carriers_cons.2 (.inl ⟨hsame.drainTrackers ▸ ht, rfl⟩), hend⟩
      · exact ⟨c, mem_carriers_cons.2 (.inr (hend ▸ hc)), rfl⟩

/-- A drain of no more than the bytes before it leaves a byte covered. -/
theorem Covers.left {p n : ℕ} {l : List (Slice α)} (hl : ∀ s ∈ l, s.WF) (h : Covers t p l)
    (hn : n ≤ p) : Covers t (p - n) (left n l) := by
  obtain ⟨c, hc, hlt⟩ := h
  obtain ⟨c', hc', heq⟩ := mem_carriers_left hl hc (n := n) (by omega)
  rw [carriers_add] at hc'
  obtain ⟨c₀, hc₀, rfl⟩ := List.mem_map.1 hc'
  exact ⟨c₀, hc₀, by dsimp only at heq; omega⟩

/-- Slices that do not carry the tracker may be removed from the end. -/
theorem Covers.kept {p : ℕ} {l : List (Slice α)} (h : Covers t p l)
    (htrimmed : ∀ s ∈ trimmed l, t ∉ s.drainTrackers) : Covers t p (kept l) := by
  have hnone (m : ℕ) {l : List (Slice α)} (hl : ∀ s ∈ l, t ∉ s.drainTrackers) :
      carriers t m l = [] := by
    induction l generalizing m with
    | nil => rfl
    | cons s l ih =>
      rw [carriers, if_neg (hl s List.mem_cons_self),
        ih _ fun u hu ↦ hl u (List.mem_cons_of_mem s hu)]
      rfl
  rw [Covers, ← kept_append_trimmed l, carriers_append, hnone _ htrimmed, List.append_nil] at h
  exact h

namespace OwnedImpl

variable {b b' other other' : OwnedImpl α} {w w' : World α} {p : ℕ}

theorem covers_adds {d : List α} (h : Adds d b w b' w') (hp : Covers t p b.slices.toList) :
    Covers t p b'.slices.toList :=
  (h.slices.reaches 0).covers hp

theorem covers_prepend {d : List α} (hb : b.WF) (h : b.prepend d w = some (b', w'))
    (hp : Covers t p b.slices.toList) : Covers t (p + d.length) b'.slices.toList := by
  rcases prepend_spec hb h with ⟨hnil, -⟩ |
    ⟨s, l, s', w₁, d₁, d₂, hl, rfl, hs', -, -, -, -, hnew⟩
  · obtain ⟨s, hs, -⟩ := hp.exists_carrier
    rw [hnil] at hs
    exact absurd hs List.not_mem_nil
  · have hsize := hs'.dataSize
    have hfront : Reaches t (d₂ ++ d₁).length ([s] ++ l) (0 + d₂.length) ([s'] ++ l) := by
      refine .append l (.single ?_ ?_) ?_
      · rw [hsize, List.length_append]
        omega
      · rw [hs'.drainTrackers]
        exact List.Subset.refl _
      · rw [dataSizes_cons, dataSizes_cons, hsize, List.length_append]
        omega
    rw [hl] at hp
    exact (hfront.trans (hnew.reaches 0)).covers hp

/-- The slices of both buffers, those of `other` in front, stay as they are. -/
theorem covers_prependInstance (hp : Covers t p (other.slices.toList ++ b.slices.toList)) :
    Covers t p (b.prependInstance other w).1.slices.toList := by
  obtain ⟨h, hnil⟩ := prependInstance_induction
    (P := fun b' other' _ ↦ Covers t p (other'.slices.toList ++ b'.slices.toList))
    (fun s b other w b' other' w' hmoves ih ↦ by
      rw [hmoves.otherSlices, List.append_assoc] at ih
      rw [hmoves.slices]
      have hfront : Reaches t (0 + dataSizes other'.slices.toList) ([s] ++ b.slices.toList)
          (0 + dataSizes other'.slices.toList)
          ([(s.maybeChargeAccount b.account w).1] ++ b.slices.toList) := by
        have hsize := s.dataSize_maybeChargeAccount b.account w
        refine .append _ (.single (by rw [hsize]) ?_)
          (by rw [dataSizes_cons, dataSizes_cons, hsize])
        rw [Slice.maybeChargeAccount]
        split_ifs <;> exact List.Subset.refl _
      exact (Reaches.append_left _ hfront).covers ih) (w := w) hp
  rwa [hnil, List.nil_append] at h

/-- The same for the buffer that is drained. -/
theorem covers_drain {n : ℕ} (hb : b.WF) (hp : Covers t p b.slices.toList) (hn : n ≤ p) :
    Covers t (p - n) (b.drain n w).1.slices.toList := by
  rw [drain, (drainImpl_spec hb n w).1]
  exact hp.left hb hn

/-- The new slice is in front of the carriers that are left, and as long as what was drained. -/
theorem covers_linearize {n : ℕ} {a : Option (Block × ℕ)} (hb : b.WF) (hmax : n ≤ maxSliceSize)
    (h : b.linearize n w = some (a, b', w')) (hp : Covers t p b.slices.toList)
    (hkeeps : n ≤ b.slices.front.dataSize ∨ ∀ c ∈ carriers t 0 b.slices.toList, n < c.1) :
    Covers t p b'.slices.toList := by
  obtain ⟨-, ⟨rfl, rfl, -⟩ | ⟨s, l, d, new, hl, hlt, happ, hdlen, -, hl', -⟩⟩ :=
    linearize_spec hb hmax h
  · exact hp
  rcases hkeeps with hle | hbehind
  · rw [SliceDeque.front_of_cons hl] at hle
    omega
  obtain ⟨c, hc, hpc⟩ := hp
  obtain ⟨c', hc', heq⟩ := mem_carriers_left hb hc (n := n) (by
    have := hbehind c hc
    omega)
  have hsize : new.dataSize = n := by
    rw [happ.dataSize, (Slice.fresh_create n b.account w).dataSize, hdlen, Nat.zero_add]
  rw [hl']
  exact ⟨c', mem_carriers_cons.2 (.inr (by rwa [hsize])), by omega⟩

/-! ### Moves

A move of everything takes the carriers along. A move of a length may cut a slice, whose trackers
stay with what is left of it in the other buffer.
-/

/-- A slice that is moved whole takes its trackers along: the slices of both buffers, one behind the
other, cover what they covered. -/
theorem covers_movesFront {s : Slice α} (ho : other.WF) (h : MovesFront s b other w b' other' w')
    (hp : Covers t p (b.slices.toList ++ other.slices.toList)) :
    Covers t p (b'.slices.toList ++ other'.slices.toList) := by
  have hs : s.WF := ho s (by rw [h.otherSlices]; exact List.mem_cons_self)
  have hfront := Reaches.append other'.slices.toList (h.slices.reaches (t := t) hs 0)
    (by rw [h.slices.dataSizes hs, dataSizes_append, dataSizes_cons, dataSizes_nil]; omega)
  rw [h.otherSlices, ← List.singleton_append, ← List.append_assoc] at hp
  exact hfront.covers hp

/-- The byte is as far behind the slices of the target as it was in the other buffer. -/
theorem covers_move (hb : b.WF) (ho : other.WF) (h : b.move other w = some (b', other', w'))
    (hp : Covers t p (b.slices.toList ++ other.slices.toList)) : Covers t p b'.slices.toList := by
  obtain ⟨hcovers, hnil⟩ := move_induction
    (P := fun b' other' _ ↦ Covers t p (b'.slices.toList ++ other'.slices.toList))
    (fun s b other w b' other' w' _ ho hmoves ih ↦ covers_movesFront ho hmoves ih) hb ho h hp
  rwa [hnil, List.append_nil] at hcovers

/-- The bytes of the target stay where they are. -/
theorem covers_moveLength_target {n : ℕ} (hb : b.WF) (ho : other.WF)
    (h : b.moveLength other n w = some (b', other', w')) (hp : Covers t p b.slices.toList) :
    Covers t p b'.slices.toList := by
  obtain ⟨-, hcovers, -⟩ := moveLength_induction
    (P := fun _ b' _ _ ↦ Covers t p b'.slices.toList)
    (fun _ _ _ _ _ _ _ _ _ _ _ ih ↦ ih)
    (fun _ _ _ _ _ _ _ _ _ _ _ hmoves ih ↦ covers_adds hmoves.adds ih)
    (fun s _ _ _ _ _ _ _ _ ho _ _ hmoves ih ↦ by
      have hs := ho s (by rw [hmoves.otherSlices]; exact List.mem_cons_self)
      exact ((Reaches.append_right 0 _ [s]).trans (hmoves.slices.reaches hs 0)).covers ih)
    hb ho h hp
  exact hcovers

/-- A byte that is not moved, and its tracker with it. -/
theorem covers_moveLength_rest {n : ℕ} (hb : b.WF) (ho : other.WF)
    (h : b.moveLength other n w = some (b', other', w')) (hp : Covers t p other.slices.toList)
    (hn : n ≤ p) : Covers t (p - n) other'.slices.toList := by
  -- With `m` bytes still to be moved, `n - m` are in front of what is left.
  obtain ⟨m, ⟨hm, c, hc, hlt⟩, hend⟩ := moveLength_induction
    (P := fun m _ other' _ ↦ m ≤ n ∧ ∃ c ∈ carriers t (n - m) other'.slices.toList, p < c.1)
    (fun s m b other w other' w' _ _ _ hdrops ⟨hm, c, hc, hlt⟩ ↦ by
      rw [hdrops.slices, mem_carriers_cons, hdrops.dataSize] at hc
      rcases hc with ⟨-, rfl⟩ | hc
      · dsimp only at hlt
        omega
      · exact ⟨hm, c, hc, hlt⟩)
    (fun s m b other w b' other' w' _ ho _ hmoves ⟨hm, c, hc, hlt⟩ ↦ by
      obtain ⟨l, hl, hl'⟩ := hmoves.otherSlices
      have hs : s.WF := ho s (by rw [hl]; exact List.mem_cons_self)
      have hpos := hmoves.lt
      obtain ⟨-, hsame, hsize, -⟩ := hs.drain_spec hpos
      rw [hl, mem_carriers_cons] at hc
      have hend : n - 0 + (s.drain m).dataSize = n - m + s.dataSize := by omega
      refine ⟨Nat.zero_le n, ?_⟩
      rw [hl']
      rcases hc with ⟨ht, rfl⟩ | hc
      · refine ⟨_, mem_carriers_cons.2 (.inl ⟨hsame.drainTrackers ▸ ht, rfl⟩), ?_⟩
        rw [hend]
        exact hlt
      · exact ⟨c, mem_carriers_cons.2 (.inr (hend ▸ hc)), hlt⟩)
    (fun s m b other w b' other' w' _ _ _ hle hmoves ⟨hm, c, hc, hlt⟩ ↦ by
      rw [hmoves.otherSlices, mem_carriers_cons] at hc
      refine ⟨(Nat.sub_le _ _).trans hm, ?_⟩
      rcases hc with ⟨-, rfl⟩ | hc
      · dsimp only at hlt
        omega
      · have hsub : n - (m - s.dataSize) = n - m + s.dataSize := by omega
        exact ⟨c, hsub ▸ hc, hlt⟩)
    hb ho h ⟨Nat.le_refl n, by
      obtain ⟨c, hc, hlt⟩ := hp
      rw [Nat.sub_self]
      exact ⟨c, hc, hlt⟩⟩
  rcases hend with rfl | hnil
  · have hadd := carriers_add (t := t) 0 n other'.slices.toList
    rw [Nat.zero_add] at hadd
    rw [Nat.sub_zero, hadd] at hc
    obtain ⟨c₀, hc₀, rfl⟩ := List.mem_map.1 hc
    exact ⟨c₀, hc₀, by dsimp only at hlt; omega⟩
  · rw [hnil] at hc
    exact absurd hc List.not_mem_nil

/-- A byte that is moved, and its tracker with it: the carriers have data and are moved whole. -/
theorem covers_moveLength_moved {n : ℕ} (hb : b.WF) (ho : other.WF)
    (h : b.moveLength other n w = some (b', other', w')) (hp : Covers t p other.slices.toList)
    (hwhole : ∀ c ∈ carriers t 0 other.slices.toList, c.2 ≠ 0 ∧ c.1 ≤ n) :
    Covers t (dataSizes b.slices.toList + p) b'.slices.toList := by
  obtain ⟨m, hcovers, hend⟩ := moveLength_induction
    (P := fun m b' other' _ ↦ Covers t (dataSizes b.slices.toList + p) b'.slices.toList ∨
      Covers t (dataSizes b.slices.toList + p) (b'.slices.toList ++ other'.slices.toList) ∧
        ∀ c ∈ carriers t 0 other'.slices.toList, c.2 ≠ 0 ∧ c.1 ≤ m)
    (fun s m b other w other' w' _ _ _ hdrops ih ↦ by
      refine ih.imp_right fun ⟨hcovers, hwhole⟩ ↦ ?_
      rw [hdrops.slices] at hcovers hwhole
      have htracker : t ∉ s.drainTrackers := fun ht ↦
        (hwhole _ (mem_carriers_cons.2 (.inl ⟨ht, rfl⟩))).1 hdrops.dataSize
      obtain ⟨c, hc, hlt⟩ := hcovers
      rw [carriers_append, List.mem_append, mem_carriers_cons, hdrops.dataSize] at hc
      refine ⟨⟨c, ?_, hlt⟩, fun c hc ↦ hwhole c (mem_carriers_cons.2 (.inr ?_))⟩
      · rw [carriers_append, List.mem_append]
        exact hc.imp_right fun hc ↦ hc.resolve_left fun hs ↦ htracker hs.1
      · rwa [hdrops.dataSize])
    (fun s m b other w b' other' w' _ _ _ hmoves ih ↦ by
      rcases ih with ih | ⟨hcovers, hwhole⟩
      · exact .inl (covers_adds hmoves.adds ih)
      -- The slice that is split ends behind the bytes that are moved, so it is no carrier.
      obtain ⟨l, hl, -⟩ := hmoves.otherSlices
      have hnone : carriers t 0 other.slices.toList = [] := by
        refine List.eq_nil_iff_forall_not_mem.2 fun c hc ↦ ?_
        have hle := (hwhole c hc).2
        have hge := le_fst_of_mem_carriers hl hc
        have := hmoves.lt
        omega
      refine .inl (covers_adds hmoves.adds ?_)
      obtain ⟨c, hc, hlt⟩ := hcovers
      rw [carriers_append, carriers_add, hnone, List.map_nil, List.append_nil] at hc
      exact ⟨c, hc, hlt⟩)
    (fun s m b other w b' other' w' _ ho _ hle hmoves ih ↦ by
      rcases ih with ih | ⟨hcovers, hwhole⟩
      · have hs := ho s (by rw [hmoves.otherSlices]; exact List.mem_cons_self)
        exact .inl (((Reaches.append_right 0 _ [s]).trans (hmoves.slices.reaches hs 0)).covers ih)
      refine .inr ⟨covers_movesFront ho hmoves hcovers, fun c hc ↦ ?_⟩
      rw [hmoves.otherSlices] at hwhole
      have hadd := carriers_add (t := t) 0 s.dataSize other'.slices.toList
      obtain ⟨hne, hend⟩ := hwhole (c.1 + s.dataSize, c.2) (mem_carriers_cons.2 (.inr (by
        rw [hadd]
        exact List.mem_map.2 ⟨c, hc, rfl⟩)))
      exact ⟨hne, by omega⟩)
    hb ho h (.inr ⟨hp.append_left, hwhole⟩)
  rcases hcovers with hcovers | ⟨hcovers, hwhole⟩
  · exact hcovers
  have hnone : carriers t 0 other'.slices.toList = [] := by
    rcases hend with rfl | hnil
    · refine List.eq_nil_iff_forall_not_mem.2 fun c hc ↦ ?_
      obtain ⟨hne, hle⟩ := hwhole c hc
      exact hne (Nat.le_zero.1 ((snd_le_of_mem_carriers hc).trans hle))
    · rw [hnil]
      rfl
  obtain ⟨c, hc, hlt⟩ := hcovers
  rw [carriers_append, carriers_add, hnone, List.map_nil, List.append_nil] at hc
  exact ⟨c, hc, hlt⟩

end OwnedImpl

/-! ### Reservations

A reservation and a commit change the end of a buffer only.
-/

/-- What the caller writes to the room behind the last slice changes no size and no tracker. -/
theorem Outstanding.covers_write {o o' : Outstanding α} {b b' : OwnedImpl α} {k offset p : ℕ}
    {bytes : List α} {w w' : World α} (h : o.write b k offset bytes w = some (o', b', w'))
    (hp : Covers t p b.slices.toList) : Covers t p b'.slices.toList := by
  rw [write] at h
  split at h
  · split_ifs at h
    split at h
    · obtain ⟨-, rfl, -⟩ : _ ∧ b = b' ∧ w = w' := by simpa using h
      exact hp
    · dsimp only at h
      split_ifs at h
      obtain ⟨-, hb', -⟩ := by simpa using h
      rw [← hb']
      rcases List.eq_nil_or_concat' b.slices.toList with hl | ⟨l, s, hl⟩
      · rw [SliceDeque.setBack_of_nil hl]
        exact hp
      · rw [SliceDeque.setBack_of_concat hl, SliceDeque.back_of_concat hl, Slice.store_eq]
        rw [hl] at hp
        have hsame (backing : Backing α) : Reaches t 0 (l ++ [s]) 0 (l ++ [{ s with backing }]) :=
          .append_left l (.single (Nat.le_refl _) (List.Subset.refl _))
        exact (hsame _).covers hp
    · cases h
  · cases h

/-- A commit adds at the end. -/
theorem OwnedImpl.covers_commit {n p : ℕ} {slices : List RawSlice} {owner : SlicesOwner α}
    {b b' : OwnedImpl α} {w w' : World α} (hb : b.WF) (howner : owner.WF)
    (h : b.commit n slices owner w = some (b', w')) (hp : Covers t p b.slices.toList) :
    Covers t p b'.slices.toList := by
  rw [commit] at h
  split_ifs at h
  · obtain ⟨rfl, -⟩ := Prod.mk.inj (Option.some.inj h)
    exact hp
  · obtain ⟨⟨rest, b₁, w₁⟩, hloop, heq⟩ := Option.map_eq_some_iff.1 h
    obtain ⟨rfl, -⟩ := Prod.mk.inj heq
    obtain ⟨adopted, d, -, -, -, -, hext⟩ := commitLoop_extends hb howner.storages hloop
    exact (hext.reaches 0).covers hp

/-! ### Where the byte is

The place of the byte is followed on byte strings, where a call adds, removes or moves bytes, and
none of this depends on slices.
-/

/-- Where byte `p` of buffer `j` is after a call, if the buffers have `len` bytes: `none` if it is
in no buffer any more. (What `extractMutableFrontSlice` hands out is not followed.) -/
def Op.carry {ι κ : Type*} [DecidableEq ι] (len : ι → ℕ) : Op ι κ α → ι × ℕ → Option (ι × ℕ)
  | .prepend i data, (j, p) => some (j, if j = i then p + data.length else p)
  | .prependInstance i k, (j, p) =>
    some (if j = k then (i, p) else if j = i then (i, len k + p) else (j, p))
  | .drain i n, (j, p) =>
    if j = i then if p < n then none else some (i, p - n) else some (j, p)
  | .move i k, (j, p) => some (if j = k then (i, len i + p) else (j, p))
  | .moveLength i k n, (j, p) =>
    some (if j = k then if p < n then (i, len i + p) else (k, p - n) else (j, p))
  | .destroy i, (j, p) => if j = i then none else some (j, p)
  | _, pos => some pos

/-- The call hands bytes to the caller. -/
def Op.HandsOut {ι κ : Type*} : Op ι κ α → Prop
  | .extractMutableFrontSlice _ => True
  | _ => False

/-- The call leaves the tracker `t` with byte `p` of buffer `j`. -/
def Op.KeepsTracker {ι κ : Type*} (t : DrainTracker) (st : Pool ι κ α) : Op ι κ α → ι × ℕ → Prop
  | .moveLength _ k n, (j, p) =>
    j = k → n ≤ p ∨ ∀ c ∈ carriers t 0 (st.buffers k).slices.toList, c.2 ≠ 0 ∧ c.1 ≤ n
  | .linearize i n, (j, _) =>
    j = i → n ≤ (st.buffers i).slices.front.dataSize ∨
      ∀ c ∈ carriers t 0 (st.buffers i).slices.toList, n < c.1
  | .reserveForRead i _, (j, _) | .reserveWithMaxLength i _ _, (j, _)
  | .reserveSingleSlice i _ _ _, (j, _) =>
    j = i → ∀ s ∈ trimmed (st.buffers i).slices.toList, t ∉ s.drainTrackers
  | _, _ => True

instance {ι κ : Type*} [DecidableEq ι] (t : DrainTracker) (st : Pool ι κ α) :
    ∀ (op : Op ι κ α) pos, Decidable (op.KeepsTracker t st pos)
  | .moveLength .., (_, _) | .linearize .., (_, _) => inferInstanceAs (Decidable (_ → _ ∨ _))
  | .reserveForRead .., (_, _) | .reserveWithMaxLength .., (_, _)
  | .reserveSingleSlice .., (_, _) => inferInstanceAs (Decidable (_ → _))
  | .add .., _ | .addInstance .., _ | .addBufferFragment .., _ | .addFragments .., _
  | .appendSliceForTest .., _ | .prepend .., _ | .prependInstance .., _ | .drain .., _
  | .move .., _ | .extractMutableFrontSlice _, _ | .addDrainTracker .., _ | .bindAccount .., _
  | .write .., _ | .commit .., _ | .dropReservation _, _ | .destroySliceData _, _ | .destroy _, _ =>
    inferInstanceAs (Decidable True)

instance {ι κ : Type*} : ∀ op : Op ι κ α, Decidable op.HandsOut
  | .extractMutableFrontSlice _ => inferInstanceAs (Decidable True)
  | .add .. | .addInstance .. | .addBufferFragment .. | .addFragments .. | .appendSliceForTest ..
  | .prepend .. | .prependInstance .. | .drain .. | .move .. | .moveLength .. | .linearize ..
  | .addDrainTracker .. | .bindAccount .. | .reserveForRead .. | .reserveWithMaxLength ..
  | .reserveSingleSlice .. | .write .. | .commit .. | .dropReservation _ | .destroySliceData _
  | .destroy _ =>
    inferInstanceAs (Decidable False)

/-- `carry` is what the calls mean for byte strings: the byte at the new place is the byte that was
at the old one. -/
theorem Strings.Step.getElem?_carry {ι κ : Type*} [DecidableEq ι] {fragments : ℕ → ℕ → α}
    {op : Op ι κ α} {s s' : Strings ι α} (h : Strings.Step fragments op s s') (hout : ¬op.HandsOut)
    (hapart : ∀ i j n, op = .prependInstance i j ∨ op = .move i j ∨ op = .moveLength i j n → i ≠ j)
    {j j' : ι} {p p' : ℕ} {x : α} (hx : (s.content j)[p]? = some x)
    (hcarry : op.carry (fun i ↦ (s.content i).length) (j, p) = some (j', p')) :
    (s'.content j')[p']? = some x := by
  have hlt : p < (s.content j).length := (List.getElem?_eq_some_iff.1 hx).1
  -- what comes in behind leaves the places of the bytes before as they are
  have happend (i : ι) (d : List α) : ((s.set i (s.content i ++ d)).content j)[p]? = some x := by
    rcases eq_or_ne j i with rfl | hji
    · rw [content_set_self, List.getElem?_append_left hlt, hx]
    · rw [content_set_of_ne _ hji, hx]
  cases h with
  | add i | addInstance i | addBufferFragment i | addFragments i | appendSliceForTest i =>
    obtain ⟨rfl, rfl⟩ := Prod.mk.inj (Option.some.inj hcarry)
    exact happend i _
  | prepend i data =>
    obtain ⟨rfl, rfl⟩ := Prod.mk.inj (Option.some.inj hcarry)
    split_ifs with hji
    · subst hji
      rw [content_set_self, List.getElem?_append_right (Nat.le_add_left _ _), Nat.add_sub_cancel,
        hx]
    · rw [content_set_of_ne _ hji, hx]
  | prependInstance i k =>
    have hik : i ≠ k := hapart i k 0 (.inl rfl)
    have hcarry := Option.some.inj hcarry
    split_ifs at hcarry with hjk hji
    · obtain ⟨rfl, rfl⟩ := Prod.mk.inj hcarry
      subst hjk
      rw [content_set_of_ne _ hik, content_set_self, List.getElem?_append_left hlt, hx]
    · obtain ⟨rfl, rfl⟩ := Prod.mk.inj hcarry
      subst hji
      rw [content_set_of_ne _ hik, content_set_self,
        List.getElem?_append_right (Nat.le_add_right _ _), Nat.add_sub_cancel_left, hx]
    · obtain ⟨rfl, rfl⟩ := Prod.mk.inj hcarry
      rw [content_set_of_ne _ hjk, content_set_of_ne _ hji, hx]
  | drain i n =>
    rw [Op.carry] at hcarry
    -- a byte that is itself drained has no place afterwards, so that case is void
    split_ifs at hcarry with hji hpn
    · obtain ⟨rfl, rfl⟩ := Prod.mk.inj (Option.some.inj hcarry)
      subst hji
      rw [content_set_self, List.getElem?_drop, Nat.add_sub_cancel' (Nat.le_of_not_lt hpn), hx]
    · obtain ⟨rfl, rfl⟩ := Prod.mk.inj (Option.some.inj hcarry)
      rw [content_set_of_ne _ hji, hx]
  | move i k =>
    have hik : i ≠ k := hapart i k 0 (.inr (.inl rfl))
    have hcarry := Option.some.inj hcarry
    split_ifs at hcarry with hjk
    · obtain ⟨rfl, rfl⟩ := Prod.mk.inj hcarry
      subst hjk
      rw [content_set_of_ne _ hik, content_set_self,
        List.getElem?_append_right (Nat.le_add_right _ _), Nat.add_sub_cancel_left, hx]
    · obtain ⟨rfl, rfl⟩ := Prod.mk.inj hcarry
      rw [content_set_of_ne _ hjk]
      exact happend i _
  | moveLength i k n =>
    have hik : i ≠ k := hapart i k n (.inr (.inr rfl))
    have hcarry := Option.some.inj hcarry
    -- the first `n` bytes go behind those of `i`, and the others move up
    split_ifs at hcarry with hjk hpn
    · obtain ⟨rfl, rfl⟩ := Prod.mk.inj hcarry
      subst hjk
      rw [content_set_of_ne _ hik, content_set_self,
        List.getElem?_append_right (Nat.le_add_right _ _), Nat.add_sub_cancel_left,
        List.getElem?_take_of_lt hpn, hx]
    · obtain ⟨rfl, rfl⟩ := Prod.mk.inj hcarry
      subst hjk
      rw [content_set_self, List.getElem?_drop, Nat.add_sub_cancel' (Nat.le_of_not_lt hpn), hx]
    · obtain ⟨rfl, rfl⟩ := Prod.mk.inj hcarry
      rw [content_set_of_ne _ hjk]
      exact happend i _
  | linearize i n =>
    obtain ⟨rfl, rfl⟩ := Prod.mk.inj (Option.some.inj hcarry)
    exact hx
  | extractMutableFrontSlice => exact absurd trivial hout

/-! ### One step

For each call it is shown that the byte at its new place is covered, if the call keeps its tracker.
The cases are grouped by what the call does to the buffers.
-/

namespace Pool

variable {ι κ : Type*} [Fintype ι] [Fintype κ] [DecidableEq ι] [DecidableEq κ] {st st' : Pool ι κ α}

/-- The numbers of bytes in the buffers. -/
def lengths (st : Pool ι κ α) (i : ι) : ℕ := dataSizes (st.buffers i).slices.toList

omit [Fintype ι] [Fintype κ] [DecidableEq κ] in
/-- A step on one buffer that leaves bytes where they are. -/
theorem covers_setBuffer {i j : ι} {p : ℕ} {b : OwnedImpl α} {w : World α}
    (hp : Covers t p (st.buffers j).slices.toList)
    (hb : Covers t p (st.buffers i).slices.toList → Covers t p b.slices.toList) :
    Covers t p ((st.setBuffer i b w).buffers j).slices.toList := by
  rcases eq_or_ne j i with rfl | hji
  · rw [buffers_setBuffer_self]
    exact hb hp
  · rwa [buffers_setBuffer_of_ne _ hji]

omit [Fintype ι] [Fintype κ] [DecidableEq κ] in
/-- A reservation removes the slices without data at the end. -/
theorem covers_reserves {i j : ι} {p : ℕ} {slices : List RawSlice} {owner : SlicesOwner α}
    {b : OwnedImpl α} {w : World α} (hp : Covers t p (st.buffers j).slices.toList)
    (hkeeps : j = i → ∀ s ∈ trimmed (st.buffers i).slices.toList, t ∉ s.drainTrackers)
    (h : Reserves (st.buffers i) st.world slices owner b w) :
    Covers t p ((st.setBuffer i b w).buffers j).slices.toList := by
  rcases eq_or_ne j i with rfl | hji
  · rw [buffers_setBuffer_self, h.toList]
    exact hp.kept (hkeeps rfl)
  · rwa [buffers_setBuffer_of_ne _ hji]

omit [Fintype ι] [Fintype κ] [DecidableEq κ] in
/-- The slices of `k` go to the front of `i`, with their trackers. -/
theorem covers_of_prependInstance {i k j j' : ι} {p p' : ℕ} {b other : OwnedImpl α} {w : World α}
    (hik : i ≠ k) (hprepend : (st.buffers i).prependInstance (st.buffers k) st.world =
      (b, other, w))
    (hcarry : Op.carry st.lengths (.prependInstance i k : Op ι κ α) (j, p) = some (j', p'))
    (hp : Covers t p (st.buffers j).slices.toList) :
    Covers t p' (((st.setBuffer i b w).setBuffer k other w).buffers j').slices.toList := by
  have hcovers {q : ℕ}
      (hq : Covers t q ((st.buffers k).slices.toList ++ (st.buffers i).slices.toList)) :
      Covers t q b.slices.toList := by
    have hq' := OwnedImpl.covers_prependInstance (w := st.world) hq
    rwa [hprepend] at hq'
  have hcarry := Option.some.inj hcarry
  split_ifs at hcarry with hjk hji
  · obtain ⟨rfl, rfl⟩ := Prod.mk.inj hcarry
    subst hjk
    rw [buffers_setBuffer_of_ne _ hik, buffers_setBuffer_self]
    exact hcovers ((Reaches.append_right 0 _ _).covers hp)
  · obtain ⟨rfl, rfl⟩ := Prod.mk.inj hcarry
    subst hji
    rw [buffers_setBuffer_of_ne _ hik, buffers_setBuffer_self]
    exact hcovers hp.append_left
  · obtain ⟨rfl, rfl⟩ := Prod.mk.inj hcarry
    rwa [buffers_setBuffer_of_ne _ hjk, buffers_setBuffer_of_ne _ hji]

omit [DecidableEq κ] in
/-- The slices of `k` go to the end of `i`, with their trackers. -/
theorem Valid.covers_of_move {i k j j' : ι} {p p' : ℕ} {b other : OwnedImpl α} {w : World α}
    (hst : st.Valid) (hik : i ≠ k)
    (hmove : (st.buffers i).move (st.buffers k) st.world = some (b, other, w))
    (hcarry : Op.carry st.lengths (.move i k : Op ι κ α) (j, p) = some (j', p'))
    (hp : Covers t p (st.buffers j).slices.toList) :
    Covers t p' (((st.setBuffer i b w).setBuffer k other w).buffers j').slices.toList := by
  have hcovers {q : ℕ}
      (hq : Covers t q ((st.buffers i).slices.toList ++ (st.buffers k).slices.toList)) :=
    OwnedImpl.covers_move (hst.buffer i) (hst.buffer k) hmove hq
  have hcarry := Option.some.inj hcarry
  split_ifs at hcarry with hjk
  · obtain ⟨rfl, rfl⟩ := Prod.mk.inj hcarry
    subst hjk
    rw [buffers_setBuffer_of_ne _ hik, buffers_setBuffer_self]
    exact hcovers hp.append_left
  · obtain ⟨rfl, rfl⟩ := Prod.mk.inj hcarry
    rw [buffers_setBuffer_of_ne _ hjk]
    exact covers_setBuffer hp fun hp ↦ hcovers ((Reaches.append_right 0 _ _).covers hp)

omit [DecidableEq κ] in
/-- Of the slices of `k`, those go to `i` with their trackers that are moved whole. -/
theorem Valid.covers_of_moveLength {i k j j' : ι} {p p' n : ℕ} {b other : OwnedImpl α} {w : World α}
    (hst : st.Valid) (hik : i ≠ k)
    (hmove : (st.buffers i).moveLength (st.buffers k) n st.world = some (b, other, w))
    (hkeeps : Op.KeepsTracker t st (.moveLength i k n) (j, p))
    (hcarry : Op.carry st.lengths (.moveLength i k n : Op ι κ α) (j, p) = some (j', p'))
    (hp : Covers t p (st.buffers j).slices.toList) :
    Covers t p' (((st.setBuffer i b w).setBuffer k other w).buffers j').slices.toList := by
  have hcarry := Option.some.inj hcarry
  split_ifs at hcarry with hjk hpn
  · obtain ⟨rfl, rfl⟩ := Prod.mk.inj hcarry
    subst hjk
    have hwhole := (hkeeps rfl).resolve_left (Nat.not_le.2 hpn)
    rw [buffers_setBuffer_of_ne _ hik, buffers_setBuffer_self]
    exact OwnedImpl.covers_moveLength_moved (hst.buffer i) (hst.buffer j) hmove hp hwhole
  · obtain ⟨rfl, rfl⟩ := Prod.mk.inj hcarry
    subst hjk
    rw [buffers_setBuffer_self]
    exact OwnedImpl.covers_moveLength_rest (hst.buffer i) (hst.buffer j) hmove hp
      (Nat.le_of_not_lt hpn)
  · obtain ⟨rfl, rfl⟩ := Prod.mk.inj hcarry
    rw [buffers_setBuffer_of_ne _ hjk]
    exact covers_setBuffer hp
      (OwnedImpl.covers_moveLength_target (hst.buffer i) (hst.buffer k) hmove)

/-- **A call that keeps the tracker keeps the byte covered**, wherever it puts it. -/
theorem Valid.covers_of_step {op : Op ι κ α} (hst : st.Valid) (h : step op st = some st')
    (hout : ¬op.HandsOut) {j j' : ι} {p p' : ℕ} (hkeeps : op.KeepsTracker t st (j, p))
    (hcarry : op.carry st.lengths (j, p) = some (j', p'))
    (hp : Covers t p (st.buffers j).slices.toList) :
    Covers t p' (st'.buffers j').slices.toList := by
  cases stepped_of_step h with
  | @add i data b w hlt hadd =>
    obtain ⟨rfl, rfl⟩ := Prod.mk.inj (Option.some.inj hcarry)
    exact covers_setBuffer hp (OwnedImpl.covers_adds (OwnedImpl.addImpl_spec (hst.buffer i) hadd))
  | @addInstance i k b w hik hadd =>
    obtain ⟨rfl, rfl⟩ := Prod.mk.inj (Option.some.inj hcarry)
    exact covers_setBuffer hp (OwnedImpl.covers_adds (OwnedImpl.addEach_spec (hst.buffer i) hadd))
  | addBufferFragment =>
    obtain ⟨rfl, rfl⟩ := Prod.mk.inj (Option.some.inj hcarry)
    refine covers_setBuffer hp fun hp ↦ ?_
    rw [OwnedImpl.toList_addBufferFragment]
    exact (Reaches.append_right 0 _ _).covers hp
  | @addFragments i fragments n b w hsum hadd =>
    obtain ⟨rfl, rfl⟩ := Prod.mk.inj (Option.some.inj hcarry)
    exact covers_setBuffer hp
      (OwnedImpl.covers_adds (OwnedImpl.addFragments_spec (hst.buffer i) hsum hadd))
  | @appendSliceForTest i data =>
    obtain ⟨rfl, rfl⟩ := Prod.mk.inj (Option.some.inj hcarry)
    have hext := (OwnedImpl.appendSliceForTest_spec (hst.buffer i) data st.world).2.2
    exact covers_setBuffer hp (hext.reaches 0).covers
  | @prepend i data b w hlt hprepend =>
    obtain ⟨rfl, rfl⟩ := Prod.mk.inj (Option.some.inj hcarry)
    rcases eq_or_ne j i with rfl | hji
    · rw [if_pos rfl, buffers_setBuffer_self]
      exact OwnedImpl.covers_prepend (hst.buffer j) hprepend hp
    · rwa [if_neg hji, buffers_setBuffer_of_ne _ hji]
  | prependInstance hik hprepend => exact covers_of_prependInstance hik hprepend hcarry hp
  | drain i n =>
    rw [Op.carry] at hcarry
    split_ifs at hcarry with hji hpn
    · obtain ⟨rfl, rfl⟩ := Prod.mk.inj (Option.some.inj hcarry)
      subst hji
      rw [buffers_setBuffer_self]
      exact OwnedImpl.covers_drain (hst.buffer j) hp (Nat.le_of_not_lt hpn)
    · obtain ⟨rfl, rfl⟩ := Prod.mk.inj (Option.some.inj hcarry)
      rwa [buffers_setBuffer_of_ne _ hji]
  | move hik hmove => exact hst.covers_of_move hik hmove hcarry hp
  | moveLength hik hmove => exact hst.covers_of_moveLength hik hmove hkeeps hcarry hp
  | @linearize i n a b w hsize hlinearize =>
    obtain ⟨rfl, rfl⟩ := Prod.mk.inj (Option.some.inj hcarry)
    rcases eq_or_ne j i with rfl | hji
    · rw [buffers_setBuffer_self]
      exact OwnedImpl.covers_linearize (hst.buffer j) (by rw [maxSliceSize]; omega) hlinearize hp
        (hkeeps rfl)
    · rwa [buffers_setBuffer_of_ne _ hji]
  | extractMutableFrontSlice => exact absurd trivial hout
  | @addDrainTracker i id b hadd =>
    obtain ⟨rfl, rfl⟩ := Prod.mk.inj (Option.some.inj hcarry)
    refine covers_setBuffer hp fun hp ↦ ?_
    obtain ⟨l, s, hl, hl', -⟩ := OwnedImpl.addDrainTracker_spec hadd
    rw [hl] at hp
    rw [hl']
    have hmore : Reaches t 0 (l ++ [s]) 0 (l ++ [s.addDrainTracker (.callback id)]) :=
      .append_left l (.single (Nat.le_refl _) (List.subset_append_left _ _))
    exact hmore.covers hp
  | bindAccount hbind =>
    obtain ⟨rfl, rfl⟩ := Prod.mk.inj (Option.some.inj hcarry)
    refine covers_setBuffer hp fun hp ↦ ?_
    rw [OwnedImpl.bindAccount] at hbind
    split_ifs at hbind
    obtain rfl := Option.some.inj hbind
    exact hp
  | reserveForRead hk hreserve =>
    obtain ⟨rfl, rfl⟩ := Prod.mk.inj (Option.some.inj hcarry)
    have hpos : 0 < defaultReadReservationSize := by decide
    obtain ⟨owner, -, hreserves⟩ := OwnedImpl.reserves_of_reserveWithMaxLength hpos hreserve
    exact covers_reserves hp hkeeps hreserves
  | reserveWithMaxLength hk hpos hreserve =>
    obtain ⟨rfl, rfl⟩ := Prod.mk.inj (Option.some.inj hcarry)
    obtain ⟨owner, -, hreserves⟩ := OwnedImpl.reserves_of_reserveWithMaxLength hpos hreserve
    exact covers_reserves hp hkeeps hreserves
  | reserveSingleSlice hk hpos hle hreserve =>
    obtain ⟨rfl, rfl⟩ := Prod.mk.inj (Option.some.inj hcarry)
    obtain ⟨owner, -, hreserves⟩ := OwnedImpl.reserves_of_reserveSingleSlice hpos hle hreserve
    exact covers_reserves hp hkeeps hreserves
  | @write i k m offset bytes o o' b w hk hwrite =>
    obtain ⟨rfl, rfl⟩ := Prod.mk.inj (Option.some.inj hcarry)
    exact covers_setBuffer (w := w) hp (Outstanding.covers_write hwrite)
  | @commit i k n o owner b w hk hle howner hcommit =>
    obtain ⟨rfl, rfl⟩ := Prod.mk.inj (Option.some.inj hcarry)
    exact covers_setBuffer (b := b) (w := w) hp
      (OwnedImpl.covers_commit (hst.buffer i) (hst.owners k i o owner hk howner) hcommit)
  | dropReservation | destroySliceData =>
    obtain ⟨rfl, rfl⟩ := Prod.mk.inj (Option.some.inj hcarry)
    exact hp
  | destroy =>
    rw [Op.carry] at hcarry
    split_ifs at hcarry with hji
    obtain ⟨rfl, rfl⟩ := Prod.mk.inj (Option.some.inj hcarry)
    rwa [buffers_setBuffer_of_ne _ hji]

/-! ### Runs

A run is followed together with the place of the byte. At its end the tracker is carried by a slice,
and it was registered once, so by the law of the ledger it has not been called.
-/

/-- A step, and where the byte is then. -/
def follow (op : Op ι κ α) (x : Pool ι κ α × Option (ι × ℕ)) :
    Option (Pool ι κ α × Option (ι × ℕ)) :=
  (step op x.1).map fun st' ↦ (st', x.2.bind (op.carry x.1.lengths))

omit [Fintype ι] in
/-- Following the byte does not change the run. -/
theorem run_of_follow {ops : List (Op ι κ α)} {x y : Pool ι κ α × Option (ι × ℕ)}
    (h : Machine.run follow ops x = some y) : Machine.run step ops x.1 = some y.1 := by
  induction ops generalizing x with
  | nil => exact congrArg (Option.map Prod.fst) h
  | cons op ops ih =>
    obtain ⟨z, hz, hrest⟩ := (Machine.run_cons_eq_some_iff follow).1 h
    obtain ⟨st', hstep, rfl⟩ := Option.map_eq_some_iff.1 hz
    exact (Machine.run_cons_eq_some_iff step).2 ⟨st', hstep, ih hrest⟩

omit [Fintype ι] in
/-- The tracker is attached to the slice that ends the buffer. -/
theorem covers_addDrainTracker {i : ι} {id : ℕ} (h : step (.addDrainTracker i id) st = some st')
    (hlength : 0 < st.lengths i) :
    Covers (.callback id) (st.lengths i - 1) (st'.buffers i).slices.toList := by
  obtain ⟨b, hadd, rfl⟩ := Option.map_eq_some_iff.1 h
  obtain ⟨l, s, hl, hl', -⟩ := OwnedImpl.addDrainTracker_spec hadd
  rw [lengths, hl, dataSizes_append, dataSizes_cons, dataSizes_nil] at hlength ⊢
  rw [buffers_setBuffer_self, hl']
  refine ⟨(0 + dataSizes l + s.dataSize, s.dataSize), ?_, by dsimp only; omega⟩
  rw [carriers_append, List.mem_append]
  exact .inr (mem_carriers_cons.2 (.inl ⟨List.mem_append_right _ (List.mem_singleton_self _), rfl⟩))

/-- A tracker that covers a byte and has been registered once has not been called. -/
theorem timesCalled_eq_zero_of_covers {fragments fresh : ℕ → ℕ → α} {ops : List (Op ι κ α)}
    (hrun : Machine.run step ops (init fragments fresh) = some st)
    (honce : (registrations ops).count t = 1) {j : ι} {p : ℕ}
    (hp : Covers t p (st.buffers j).slices.toList) : st.timesCalled t = 0 := by
  obtain ⟨s, hs, ht⟩ := hp.exists_carrier
  have hlive : s ∈ st.live := by
    rw [live, Multiset.mem_add]
    exact .inl (Multiset.mem_sum.2 ⟨j, Finset.mem_univ j, Multiset.mem_coe.2 hs⟩)
  have hcarried : s.drainTrackers.count t ≤ st.timesCarried t :=
    Multiset.single_le_sum (fun _ _ ↦ Nat.zero_le _) _
      (Multiset.mem_map_of_mem (fun s : Slice α ↦ s.drainTrackers.count t) hlive)
  have hpos := List.count_pos_iff.2 ht
  have := timesCalled_add_timesCarried hrun t
  omega

/-- **A tracker is not called while its byte is in a buffer.** The tracker is registered on a buffer
that is not empty, on behalf of its last byte, which is followed from there. In a run in which no
call takes the tracker from its byte, the tracker has not been called as long as the byte is in some
buffer. -/
theorem not_called_of_run {fragments fresh : ℕ → ℕ → α} {ops ops' : List (Op ι κ α)}
    {st₁ st₂ : Pool ι κ α} {i : ι} {id : ℕ} {pos : Option (ι × ℕ)}
    (hrun : Machine.run step ops (init fragments fresh) = some st₁) (hlength : 0 < st₁.lengths i)
    (hadd : step (.addDrainTracker i id) st₁ = some st₂)
    (honce : (registrations (ops ++ .addDrainTracker i id :: ops')).count (.callback id) = 1)
    (hrun' : Machine.run follow ops' (st₂, some (i, st₁.lengths i - 1)) = some (st, pos))
    (hmeets : Machine.Meets follow
      (fun op x ↦ ¬op.HandsOut ∧ ∀ pos ∈ x.2, op.KeepsTracker (.callback id) x.1 pos) ops'
      (st₂, some (i, st₁.lengths i - 1))) (hpos : pos ≠ none) :
    st.timesCalled (.callback id) = 0 := by
  have hvalid := (valid_of_run hrun).of_step hadd
  obtain ⟨-, hcovers⟩ := Machine.invariant_of_meets
    (I := fun x ↦ x.1.Valid ∧
      ∀ pos ∈ x.2, Covers (.callback id) pos.2 (x.1.buffers pos.1).slices.toList)
    (fun op x y ⟨hvalid, hcovers⟩ ⟨hout, hkeeps⟩ hstep ↦ by
      obtain ⟨st', hstep', rfl⟩ := Option.map_eq_some_iff.1 hstep
      refine ⟨hvalid.of_step hstep', fun ⟨j', p'⟩ hj' ↦ ?_⟩
      obtain ⟨⟨j, p⟩, hj, hcarry⟩ := Option.bind_eq_some_iff.1 hj'
      exact hvalid.covers_of_step hstep' hout (hkeeps _ hj) hcarry (hcovers _ hj)) hrun' hmeets
    ⟨hvalid, fun pos hpos ↦ by
      obtain rfl := Option.some.inj hpos
      exact covers_addDrainTracker hadd hlength⟩
  obtain ⟨⟨j, p⟩, rfl⟩ := Option.ne_none_iff_exists'.1 hpos
  have hwhole : Machine.run step (ops ++ .addDrainTracker i id :: ops') (init fragments fresh) =
      some st :=
    (Machine.run_append_eq_some_iff step).2 ⟨st₁, hrun,
      (Machine.run_cons_eq_some_iff step).2 ⟨st₂, hadd, run_of_follow hrun'⟩⟩
  exact timesCalled_eq_zero_of_covers hwhole honce (hcovers (j, p) rfl)

end Pool

section

variable {ι κ : Type} [DecidableEq ι] [DecidableEq κ] [Fintype κ]

/-- Two bytes. -/
def twoBytes (i : ι) : Pool ι κ ℕ :=
  (Machine.run Pool.step [.add i [1, 2]] (.init (fun _ n ↦ n) fun _ _ ↦ 0)).getD
    (.init (fun _ n ↦ n) fun _ _ ↦ 0)

/-- A tracker is registered for the second of them. -/
def tracked (i : ι) : Pool ι κ ℕ :=
  (Pool.step (.addDrainTracker i 7) (twoBytes i)).getD (twoBytes i)

end

/-- More is added behind the byte, and all of it is moved on, with something in front of it. -/
def movedOn {ι κ : Type} (i j : ι) (k : κ) : List (Op ι κ ℕ) :=
  [.add i [3, 4], .moveLength j i 4, .prepend j [9], .linearize j 4, .reserveForRead j k,
    .commit k 2, .move i j, .drain i 2]

/-- The byte is the first byte of its old buffer in the end, and its tracker has not been called. -/
theorem Pool.not_called_of_run_movedOn :
    ∃ st : Pool (Fin 2) (Fin 1) ℕ,
      Machine.run follow (movedOn 0 1 0) (tracked 0, some (0, 1)) = some (st, some (0, 0)) ∧
      (st.content 0).head? = some 2 ∧ st.timesCalled (.callback 7) = 0 := by
  set st₁ : Pool (Fin 2) (Fin 1) ℕ := twoBytes 0
  set st₂ : Pool (Fin 2) (Fin 1) ℕ := tracked 0
  have hrun : Machine.run step [.add 0 [1, 2]] (.init (fun _ n ↦ n) fun _ _ ↦ 0) = some st₁ := rfl
  have hadd : step (.addDrainTracker 0 7) st₁ = some st₂ := rfl
  have hmeets : Machine.Meets follow
      (fun op x ↦ ¬op.HandsOut ∧ ∀ pos ∈ x.2, op.KeepsTracker (.callback 7) x.1 pos) (movedOn 0 1 0)
      (st₂, some (0, st₁.lengths 0 - 1)) := by
    decide
  have hend : (Machine.run follow (movedOn 0 1 0) (st₂, some (0, 1))).map
      (fun x ↦ (x.2, (x.1.content 0).head?)) = some (some (0, 0), some 2) := by
    decide
  obtain ⟨⟨st, pos⟩, hrun', heq⟩ := Option.map_eq_some_iff.1 hend
  obtain ⟨rfl, hhead⟩ := Prod.mk.inj heq
  exact ⟨st, hrun', hhead, not_called_of_run hrun (by decide) hadd (by decide) hrun' hmeets
    (Option.some_ne_none _)⟩

/-- Two bytes are added behind the byte, so they are in its slice. The first half of the slice is
moved, and the second half is drained. -/
def splitOff {ι κ : Type} (i j : ι) : List (Op ι κ ℕ) :=
  [.add i [3, 4], .moveLength j i 2, .drain i 2]

/-- The byte is in the other buffer, and its tracker has been called. -/
theorem tracker_called_too_early :
    ∃ st₁ st₂ st : Pool (Fin 2) (Fin 1) ℕ,
      Machine.run Pool.step [.add 0 [1, 2]] (.init (fun _ n ↦ n) fun _ _ ↦ 0) = some st₁ ∧
      st₁.content 0 = [1, 2] ∧ Pool.step (.addDrainTracker 0 7) st₁ = some st₂ ∧
      (∀ op ∈ (splitOff 0 1 : List (Op (Fin 2) (Fin 1) ℕ)), ¬op.HandsOut) ∧
      Machine.run Pool.follow (splitOff 0 1) (st₂, some (0, 1)) = some (st, some (1, 1)) ∧
      st.content 1 = [1, 2] ∧ st.timesCalled (.callback 7) = 1 := by
  have hend : (Machine.run Pool.follow (splitOff 0 1)
      ((tracked 0 : Pool (Fin 2) (Fin 1) ℕ), some (0, 1))).map
      (fun x ↦ (x.2, x.1.content 1, x.1.timesCalled (.callback 7))) =
        some (some (1, 1), [1, 2], 1) := by
    decide
  obtain ⟨⟨st, pos⟩, hrun, heq⟩ := Option.map_eq_some_iff.1 hend
  simp only [Prod.mk.injEq] at heq
  obtain ⟨rfl, hcontent, hcalled⟩ := heq
  exact ⟨twoBytes 0, tracked 0, st, rfl, by decide, rfl, by decide, hrun, hcontent, hcalled⟩

end TcpServer.Buffer
