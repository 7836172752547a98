import Mathlib.Data.List.Nodup
import Mathlib.Data.List.Range
import Mathlib.Tactic.Common

/-!
# Prefetch buffers

Some buffers are filled from one source and consumed in order, so many units at a time; a buffer
that has too few units left is filled again and consumed from its start. A fill may fail and leave
the buffer as it was. A `Pool` says for each buffer which fill its units come from and how far it is
consumed; every draw has a trace of where its units come from, the number of the fill and the place
in it.

No unit is drawn twice and each comes from a fill exactly when no buffer is consumed again after a
failed fill (`fresh_append_run_iff`). One direction is an invariant of the pool, the other one is
that the first unit of a buffer is always drawn as soon as it is there.

The second part has memories whose cells carry this trace, for programs that really store the units.

The units have no value in the first part, so a pool is finite data: a count of the fills and, for
each buffer, a source and a position. A program that stores values is tied to a pool by the origins
of its cells.
-/

namespace TcpServer.Prefetch

/-! ### Pools

A draw prepares its buffer, takes the next units, and moves the position. That no unit is drawn
twice is an invariant, since a buffer is filled from a new source before it is drawn from the start
again.
-/

/-- `fills` counts the fills, the failed ones too, and `source i` is the last one that filled buffer
`i`. -/
structure Pool (ι : Type*) where
  /-- How many fills there were. -/
  fills : ℕ
  /-- The last fill that succeeded, for each buffer. -/
  source : ι → Option ℕ
  /-- How many units of each buffer are used up. -/
  pos : ι → ℕ

/-- Every unit was delivered by a fill, and none is there twice. -/
structure Fresh (units : List (Option (ℕ × ℕ))) : Prop where
  /-- No unit comes from nowhere. -/
  none_notMem : none ∉ units
  /-- No unit comes twice. -/
  nodup : units.Nodup

/-- Where the units from `pos` on of a buffer come from. -/
def units (source : Option ℕ) (pos width : ℕ) : List (Option (ℕ × ℕ)) :=
  (List.range' pos width).map fun k ↦ source.map (·, k)

theorem Fresh.of_append {us vs : List (Option (ℕ × ℕ))} (h : Fresh (us ++ vs)) : Fresh us :=
  ⟨fun hus ↦ h.none_notMem (List.mem_append_left vs hus), (List.nodup_append.1 h.nodup).1⟩

/-- The units of a part of a buffer. -/
theorem mem_units {source : Option ℕ} {pos width : ℕ} {u : Option (ℕ × ℕ)} :
    u ∈ units source pos width ↔ ∃ k, pos ≤ k ∧ k < pos + width ∧ source.map (·, k) = u := by
  rw [units, List.mem_map]
  constructor
  · rintro ⟨k, hk, rfl⟩
    rw [List.mem_range'_1] at hk
    exact ⟨k, hk.1, hk.2, rfl⟩
  · rintro ⟨k, hle, hlt, rfl⟩
    exact ⟨k, List.mem_range'_1.2 ⟨hle, hlt⟩, rfl⟩

theorem mem_units_some {n m k pos width : ℕ} :
    some (m, k) ∈ units (some n) pos width ↔ m = n ∧ pos ≤ k ∧ k < pos + width := by
  rw [mem_units]
  constructor
  · rintro ⟨j, hle, hlt, hj⟩
    rw [Option.map_some, Option.some_inj, Prod.mk.injEq] at hj
    obtain ⟨rfl, rfl⟩ := hj
    exact ⟨rfl, hle, hlt⟩
  · rintro ⟨rfl, hle, hlt⟩
    exact ⟨k, hle, hlt, rfl⟩

theorem fresh_units (n pos width : ℕ) : Fresh (units (some n) pos width) := by
  constructor
  · rw [mem_units]
    rintro ⟨k, -, -, hk⟩
    exact absurd hk (Option.some_ne_none _)
  · refine List.Nodup.map ?_ List.nodup_range'
    intro k k' h
    exact (Prod.mk.inj (Option.some_inj.1 h)).2

namespace Pool

variable {ι : Type*} (size width : ι → ℕ)

/-- The pool before the first draw: nothing is filled and all buffers are used up. -/
def start : Pool ι where
  fills := 0
  source _ := none
  pos := size

/-- Buffer `i` has too few units left. -/
def Exhausted (p : Pool ι) (i : ι) : Prop := size i < p.pos i + width i

instance (p : Pool ι) (i : ι) : Decidable (p.Exhausted size width i) :=
  inferInstanceAs (Decidable (size i < p.pos i + width i))

/-- What is known of a pool from which `us` was drawn while no fill failed. -/
structure Inv (p : Pool ι) (us : List (Option (ℕ × ℕ))) : Prop where
  /-- The units drawn are fresh. -/
  fresh : Fresh us
  /-- They come from fills that there were. -/
  used_lt : ∀ n k, some (n, k) ∈ us → n < p.fills
  /-- So do those in the buffers. -/
  source_lt : ∀ i n, p.source i = some n → n < p.fills
  /-- Two buffers have no source in common. -/
  source_inj : ∀ i j n, p.source i = some n → p.source j = some n → i = j
  /-- A buffer that can be drawn from was filled. -/
  isSome : ∀ i, ¬p.Exhausted size width i → ∃ n, p.source i = some n
  /-- The units of a source that were drawn are before the position. -/
  lt_pos : ∀ i n k, p.source i = some n → some (n, k) ∈ us → k < p.pos i

/-- The first unit of what a buffer holds was drawn. -/
def Started (p : Pool ι) (us : List (Option (ℕ × ℕ))) : Prop :=
  ∀ i n, p.source i = some n → some (n, 0) ∈ us

variable {size width} in
/-- At the start nothing was drawn. -/
theorem inv_start (hwidth : ∀ i, 0 < width i) : (start size).Inv size width [] where
  fresh := ⟨List.not_mem_nil, List.nodup_nil⟩
  used_lt _ _ h := absurd h List.not_mem_nil
  source_lt _ _ h := absurd h.symm (Option.some_ne_none _)
  source_inj _ _ _ h _ := absurd h.symm (Option.some_ne_none _)
  isSome i h := absurd (Nat.lt_add_of_pos_right (hwidth i)) h
  lt_pos _ _ _ h _ := absurd h.symm (Option.some_ne_none _)

variable {size} in
theorem started_start : (start size).Started [] :=
  fun _ _ h ↦ absurd h.symm (Option.some_ne_none _)

variable [DecidableEq ι] (ok : ℕ → Bool)

/-- After a failed fill too the buffer is consumed from its start. -/
def refill (p : Pool ι) (i : ι) : Pool ι where
  fills := p.fills + 1
  source := Function.update p.source i (if ok p.fills then some p.fills else p.source i)
  pos := Function.update p.pos i 0

/-- Fills the buffer if it has too few units left. -/
def prepare (p : Pool ι) (i : ι) : Pool ι :=
  if p.Exhausted size width i then p.refill ok i else p

/-- Moves the position behind the units drawn. -/
def advance (p : Pool ι) (i : ι) : Pool ι :=
  { p with pos := Function.update p.pos i (p.pos i + width i) }

/-- The units that the next draw from buffer `i` has. -/
def drawn (p : Pool ι) (i : ι) : List (Option (ℕ × ℕ)) :=
  units ((p.prepare size width ok i).source i) ((p.prepare size width ok i).pos i) (width i)

/-- The pool after a draw. -/
def next (p : Pool ι) (i : ι) : Pool ι := (p.prepare size width ok i).advance width i

/-- The units of all draws of a run. -/
def run : Pool ι → List ι → List (Option (ℕ × ℕ))
  | _, [] => []
  | p, i :: is => p.drawn size width ok i ++ run (p.next size width ok i) is

/-- No fill of the run fails. -/
def Succeeds : Pool ι → List ι → Prop
  | _, [] => True
  | p, i :: is =>
    (p.Exhausted size width i → ok p.fills = true) ∧ Succeeds (p.next size width ok i) is

variable {size width ok} {p : Pool ι} {us : List (Option (ℕ × ℕ))} {i j : ι}

@[simp] theorem refill_pos_self : (p.refill ok i).pos i = 0 := Function.update_self _ _ _

theorem refill_pos_of_ne (h : j ≠ i) : (p.refill ok i).pos j = p.pos j :=
  Function.update_of_ne h _ _

@[simp] theorem refill_source_self :
    (p.refill ok i).source i = if ok p.fills then some p.fills else p.source i :=
  Function.update_self _ _ _

theorem refill_source_of_ne (h : j ≠ i) : (p.refill ok i).source j = p.source j :=
  Function.update_of_ne h _ _

@[simp] theorem advance_pos_self : (p.advance width i).pos i = p.pos i + width i :=
  Function.update_self _ _ _

theorem advance_pos_of_ne (h : j ≠ i) : (p.advance width i).pos j = p.pos j :=
  Function.update_of_ne h _ _

/-- After the preparation there are units enough. -/
theorem not_exhausted_prepare (hsize : width i ≤ size i) :
    ¬(p.prepare size width ok i).Exhausted size width i := by
  rw [prepare]
  split
  · rw [Exhausted, refill_pos_self]
    omega
  · assumption

/-- A fill that succeeds keeps the invariant. -/
theorem Inv.refill (h : p.Inv size width us) (i : ι) (hok : ok p.fills = true) :
    (p.refill ok i).Inv size width us := by
  have hself : (p.refill ok i).source i = some p.fills := by rw [refill_source_self, if_pos hok]
  refine ⟨h.fresh, fun n k hu ↦ Nat.lt_succ_of_lt (h.used_lt n k hu), ?_, ?_, ?_, ?_⟩
  · intro j n hj
    show n < p.fills + 1
    by_cases hji : j = i
    · rw [hji, hself, Option.some_inj] at hj
      omega
    · exact Nat.lt_succ_of_lt (h.source_lt j n (by rw [← refill_source_of_ne hji, hj]))
  · -- the other buffers hold earlier fills
    intro j j' n hj hj'
    by_cases hji : j = i
    · by_cases hji' : j' = i
      · rw [hji, hji']
      · rw [hji, hself, Option.some_inj] at hj
        have hlt := h.source_lt j' n (by rw [← refill_source_of_ne hji', hj'])
        omega
    · by_cases hji' : j' = i
      · rw [hji', hself, Option.some_inj] at hj'
        have hlt := h.source_lt j n (by rw [← refill_source_of_ne hji, hj])
        omega
      · rw [refill_source_of_ne hji] at hj
        rw [refill_source_of_ne hji'] at hj'
        exact h.source_inj j j' n hj hj'
  · intro j hj
    by_cases hji : j = i
    · exact ⟨p.fills, by rw [hji, hself]⟩
    · obtain ⟨n, hn⟩ := h.isSome j (by rwa [Exhausted, ← refill_pos_of_ne hji])
      exact ⟨n, by rw [refill_source_of_ne hji, hn]⟩
  · intro j n k hj hu
    by_cases hji : j = i
    · rw [hji, hself, Option.some_inj] at hj
      have hlt := h.used_lt n k hu
      omega
    · rw [refill_pos_of_ne hji]
      exact h.lt_pos j n k (by rw [← refill_source_of_ne hji, hj]) hu

theorem Inv.prepare (h : p.Inv size width us) (hok : p.Exhausted size width i → ok p.fills = true) :
    (p.prepare size width ok i).Inv size width us := by
  rw [Pool.prepare]
  split
  · exact h.refill i (hok (by assumption))
  · exact h

/-- Drawing units that are there keeps the invariant: they lie behind all that was drawn. -/
theorem Inv.advance (h : p.Inv size width us) (hi : ¬p.Exhausted size width i) :
    (p.advance width i).Inv size width (us ++ units (p.source i) (p.pos i) (width i)) := by
  obtain ⟨m, hm⟩ := h.isSome i hi
  have hfresh := fresh_units m (p.pos i) (width i)
  rw [hm]
  refine ⟨⟨?_, ?_⟩, ?_, h.source_lt, h.source_inj, ?_, ?_⟩
  · rw [List.mem_append]
    exact fun hu ↦ hu.elim h.fresh.none_notMem hfresh.none_notMem
  · refine List.nodup_append.2 ⟨h.fresh.nodup, hfresh.nodup, ?_⟩
    rintro u hu v hv rfl
    obtain ⟨k, hle, -, rfl⟩ := mem_units.1 hv
    have hlt := h.lt_pos i m k hm hu
    omega
  · intro n k hu
    rcases List.mem_append.1 hu with hu | hu
    · exact h.used_lt n k hu
    · obtain ⟨rfl, -⟩ := mem_units_some.1 hu
      exact h.source_lt i n hm
  · intro j hj
    by_cases hji : j = i
    · exact ⟨m, by rw [hji]; exact hm⟩
    · exact h.isSome j (by rwa [Exhausted, ← advance_pos_of_ne hji])
  · intro j n k hj hu
    rcases List.mem_append.1 hu with hu | hu
    · have hlt := h.lt_pos j n k hj hu
      by_cases hji : j = i
      · rw [hji] at hlt ⊢
        rw [advance_pos_self]
        omega
      · rwa [advance_pos_of_ne hji]
    · obtain ⟨rfl, -, hlt⟩ := mem_units_some.1 hu
      rw [h.source_inj j i n hj hm, advance_pos_self]
      exact hlt

/-- So does a draw, if the fill before it succeeds. -/
theorem Inv.next (h : p.Inv size width us) (hsize : width i ≤ size i)
    (hok : p.Exhausted size width i → ok p.fills = true) :
    (p.next size width ok i).Inv size width (us ++ p.drawn size width ok i) :=
  (h.prepare hok).advance (not_exhausted_prepare hsize)

/-- The first unit of a buffer is drawn as soon as the buffer is filled. -/
theorem Started.next (h : p.Started us) (hwidth : 0 < width i) :
    (p.next size width ok i).Started (us ++ p.drawn size width ok i) := by
  intro j n hj
  have hj' : (p.prepare size width ok i).source j = some n := hj
  by_cases hex : p.Exhausted size width i
  · have hprep : p.prepare size width ok i = p.refill ok i := if_pos hex
    rw [hprep] at hj'
    by_cases hji : j = i
    · have hsource : (p.refill ok i).source i = some n := hji ▸ hj'
      by_cases hok : ok p.fills = true
      · -- the new fill is drawn from its start
        refine List.mem_append_right _ ?_
        rw [drawn, hprep, hsource, refill_pos_self]
        exact mem_units_some.2 ⟨rfl, Nat.le_refl 0, by omega⟩
      · rw [refill_source_self, if_neg hok] at hsource
        exact List.mem_append_left _ (h i n hsource)
    · rw [refill_source_of_ne hji] at hj'
      exact List.mem_append_left _ (h j n hj')
  · have hprep : p.prepare size width ok i = p := if_neg hex
    rw [hprep] at hj'
    exact List.mem_append_left _ (h j n hj')

/-- After a failed fill the draw has nothing, or the first unit again. -/
theorem Started.not_fresh (h : p.Started us) (hwidth : 0 < width i) (hex : p.Exhausted size width i)
    (hok : ok p.fills ≠ true) : ¬Fresh (us ++ p.drawn size width ok i) := by
  have hdrawn : p.drawn size width ok i = units (p.source i) 0 (width i) := by
    have hprep : p.prepare size width ok i = p.refill ok i := if_pos hex
    rw [drawn, hprep, refill_source_self, if_neg hok, refill_pos_self]
  rw [hdrawn]
  intro hfresh
  rcases hs : p.source i with _ | n
  · rw [hs] at hfresh
    exact hfresh.none_notMem
      (List.mem_append_right _ (mem_units.2 ⟨0, Nat.le_refl 0, by omega, rfl⟩))
  · rw [hs] at hfresh
    exact (List.nodup_append.1 hfresh.nodup).2.2 _ (h i n hs) _
      (mem_units_some.2 ⟨rfl, Nat.le_refl 0, by omega⟩) rfl

/-- The units of a run are fresh exactly when no fill of the run fails. -/
theorem fresh_append_run_iff (hsize : ∀ i, width i ≤ size i) (hwidth : ∀ i, 0 < width i)
    {is : List ι}
    (h : p.Inv size width us) (hstarted : p.Started us) :
    Fresh (us ++ p.run size width ok is) ↔ p.Succeeds size width ok is := by
  induction is generalizing p us with
  | nil =>
    rw [run, List.append_nil]
    exact ⟨fun _ ↦ trivial, fun _ ↦ h.fresh⟩
  | cons i is ih =>
    rw [run, Succeeds, ← List.append_assoc]
    by_cases hfail : p.Exhausted size width i → ok p.fills = true
    · rw [ih (h.next (hsize i) hfail) (hstarted.next (hwidth i))]
      exact ⟨fun hrest ↦ ⟨hfail, hrest⟩, fun hrest ↦ hrest.2⟩
    · have hex := Classical.not_imp.1 hfail
      constructor
      · exact fun hfresh ↦ absurd hfresh.of_append (hstarted.not_fresh (hwidth i) hex.1 hex.2)
      · exact fun hrest ↦ absurd hrest.1 hfail

/-- The units of a run from the start are fresh exactly when no fill of the run fails. -/
theorem fresh_run_iff (size width : ι → ℕ) (ok : ℕ → Bool) (hsize : ∀ i, width i ≤ size i)
    (hwidth : ∀ i, 0 < width i) (is : List ι) :
    Fresh ((start size).run size width ok is) ↔ (start size).Succeeds size width ok is :=
  fresh_append_run_iff hsize hwidth (inv_start hwidth) started_start

end Pool

/-! ### Memories with traces

The origins of the cells are what a pool says of them. What is read is then fresh if the pool says
so, and its values are those delivered if each cell has the value of its origin.
-/

/-- A cell of a buffer: its value, and the fill and the place in it that it was delivered by. -/
structure Cell (α : Type*) where
  /-- What is stored. -/
  value : α
  /-- Where it comes from, if it was ever delivered. -/
  origin : Option (ℕ × ℕ)

variable {α : Type*}

/-- What fill `n` leaves in the buffer. -/
def delivered (n : ℕ) (vs : List α) : List (Cell α) :=
  vs.mapIdx fun k v ↦ { value := v, origin := some (n, k) }

/-- The cell has the value that its fill delivered. -/
def Cell.Genuine (fill : ℕ → Option (List α)) (c : Cell α) : Prop :=
  ∃ n k vs, c.origin = some (n, k) ∧ fill n = some vs ∧ vs[k]? = some c.value

@[simp] theorem length_delivered (n : ℕ) (vs : List α) : (delivered n vs).length = vs.length := by
  rw [delivered, List.length_mapIdx]

/-- The origins of what a fill delivers. -/
theorem map_origin_delivered (n : ℕ) (vs : List α) :
    (delivered n vs).map Cell.origin = units (some n) 0 vs.length := by
  refine List.ext_getElem (by simp [units]) fun k hk hk' ↦ ?_
  simp [delivered, units]

theorem genuine_of_mem_delivered {fill : ℕ → Option (List α)} {n : ℕ} {vs : List α}
    (h : fill n = some vs)
    {c : Cell α} (hc : c ∈ delivered n vs) : c.Genuine fill := by
  obtain ⟨k, hk, rfl⟩ := List.mem_mapIdx.1 hc
  exact ⟨n, k, vs, rfl, h, List.getElem?_eq_getElem hk⟩

/-- A part of a buffer has the units of that part. -/
theorem take_drop_units {source : Option ℕ} {size pos width : ℕ} (h : pos + width ≤ size) :
    ((units source 0 size).drop pos).take width = units source pos width := by
  refine List.ext_getElem ?_ fun k hk hk' ↦ ?_
  · simp only [units, List.length_take, List.length_drop, List.length_map, List.length_range']
    omega
  · simp [units]

end TcpServer.Prefetch
