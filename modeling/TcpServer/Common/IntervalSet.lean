import Mathlib.Data.List.Induction
import TcpServer.Lib.Intervals
import TcpServer.Lib.OrderedSet

/-!
# Sets of intervals

`IntervalSetImpl` keeps half-open intervals in a set whose comparator says that one interval is less
than another if it ends before the other begins. Intervals that overlap or abut are equivalent then,
so a new interval has to replace them. What is stored is the canonical list of the union of what was
inserted (`insertAll_spec`).

The comparator is not transitive in its equivalence: two intervals that are apart may both meet a
third. The set is nevertheless well behaved, since its elements are always apart (`Canonical`), and
a search with the interval to be inserted splits them into those before it, those that meet it and
those behind it (`Split` of the library). `lower_bound` and `upper_bound` are the two ends of the
middle part.

The order is any linear one; only `test` needs a number after each value, and uses nothing of it.
-/

namespace TcpServer.Common

open Intervals OrderedSet

variable {α : Type*} [LinearOrder α]

/-- `Compare`. -/
def intervalCompare (a b : α × α) : Bool := a.2 < b.1

/-- `IntervalSetImpl`. -/
structure IntervalSetImpl (α : Type*) where
  /-- The elements in the order of the comparator. -/
  intervals : List (α × α) := []

namespace IntervalSetImpl

/-- The search for intervals to merge: what `left`, `right` and `intervals_` are behind it. -/
def merge (left right : α) (intervals : List (α × α)) : (α × α) × List (α × α) :=
  let leftPos := lowerBound intervalCompare intervals (left, left)
  match intervals[leftPos]? with
  | none => ((left, right), intervals)
  | some leftInterval =>
    if leftInterval.1 ≤ right then
      -- `upper_bound` is exclusive, and we want to be inclusive.
      let rightPos := upperBound intervalCompare intervals (right, right)
      if rightPos = 0 then ((left, right), intervals)
      else
        match intervals[rightPos - 1]? with
        | none => ((left, right), intervals)
        | some rightInterval =>
          if left ≤ rightInterval.2 then
            -- Both bounds overlap, with one or more existing intervals.
            ((min leftInterval.1 left, max rightInterval.2 right), erase intervals leftPos rightPos)
          else ((left, right), intervals)
    else ((left, right), intervals)

/-- `insert`: nothing for an empty interval, and otherwise the new interval in place of all that it
meets. The search is not made on an empty set. -/
def insert (left right : α) (s : IntervalSetImpl α) : IntervalSetImpl α :=
  if left = right then s
  else
    let merged := if s.intervals.isEmpty then ((left, right), s.intervals)
      else merge left right s.intervals
    { intervals := OrderedSet.insert intervalCompare merged.2 merged.1 }

/-- The comparator reads only the beginning of what is searched, so nothing depends on `value +
1`. -/
def test [Add α] [One α] (s : IntervalSetImpl α) (value : α) : Bool :=
  let leftPos := lowerBound intervalCompare s.intervals (value, value + 1)
  match s.intervals[leftPos]? with
  | none => false
  | some interval => interval.1 ≤ value ∧ value < interval.2

/-- `toVector`, the elements in order. -/
def toVector (s : IntervalSetImpl α) : List (α × α) := s.intervals

/-- Calls of `insert`, one after the other, on a set just made. -/
def insertAll (calls : List (α × α)) : IntervalSetImpl α :=
  calls.foldl (fun s call ↦ s.insert call.1 call.2) {}

variable {left right v : α} {l A B C : List (α × α)} {s : IntervalSetImpl α}

/-! ### One insertion

The new interval splits the canonical list in three, and the bounds of the search are the lengths of
the parts. The step from one canonical list to the next is `insert_spec`.
-/

/-- The lower bound is the first interval that meets the new one, or the first one behind it. -/
theorem lowerBound_split (h : Canonical l) (hlt : left ≤ right) (hs : Split left right l A B C)
    (x : α) :
    lowerBound intervalCompare l (left, x) = A.length := by
  rw [hs.eq_append]
  refine lowerBound_append (fun I hI ↦ decide_eq_true (hs.before I hI)) fun I hI ↦
    decide_eq_false ?_
  rcases List.mem_append.1 hI with hB | hC
  · exact not_lt.2 (hs.meets I hB).1
  · have hI : I ∈ l := hs.eq_append ▸ List.mem_append_right A hI
    exact not_lt.2 (hlt.trans ((hs.behind I hC).trans (h.nonempty I hI)).le)

/-- The upper bound is the first interval behind the new one. -/
theorem upperBound_split (h : Canonical l) (hlt : left ≤ right) (hs : Split left right l A B C)
    (x : α) :
    upperBound intervalCompare l (x, right) = A.length + B.length := by
  rw [hs.eq_append, ← List.append_assoc, ← List.length_append]
  refine upperBound_append (fun I hI ↦ decide_eq_false ?_) fun I hI ↦
    decide_eq_true (hs.behind I hI)
  rcases List.mem_append.1 hI with hA | hB
  · have hI : I ∈ l := hs.eq_append ▸ List.mem_append_left _ hA
    exact not_lt.2 (((h.nonempty I hI).trans (hs.before I hA)).le.trans hlt)
  · exact not_lt.2 (hs.meets I hB).2

/-- The search finds the intervals that meet the new one, and takes them out. -/
theorem merge_split (h : Canonical l) (hlt : left < right) (hs : Split left right l A B C) :
    ∃ m, IsHull left right B m ∧ merge left right l = (m, A ++ C) := by
  rw [merge, lowerBound_split h hlt.le hs]
  have hget : l[A.length]? = (B ++ C)[0]? := by
    rw [hs.eq_append, List.getElem?_append_right le_rfl, Nat.sub_self]
  dsimp only
  rw [hget]
  match B with
  | [] =>
    have heq : l = A ++ C := hs.eq_append
    refine ⟨(left, right), ⟨⟨le_rfl, by simp⟩, ⟨le_rfl, by simp⟩, .inl rfl, .inl rfl⟩, ?_⟩
    match C, hs.behind with
    | [], _ => rw [← heq]; rfl
    | I :: _, hbehind =>
      rw [← heq]
      exact if_neg (not_le.2 (hbehind I List.mem_cons_self))
  | first :: rest =>
    have hfirst := hs.meets first List.mem_cons_self
    obtain ⟨last, hlast⟩ : ∃ last, (first :: rest)[rest.length]? = some last :=
      ⟨_, List.getElem?_eq_getElem (Nat.lt_succ_self _)⟩
    have hpos : ¬ A.length + (first :: rest).length = 0 := Nat.succ_ne_zero _
    have hlast_get : l[A.length + (first :: rest).length - 1]? = some last := by
      rw [hs.eq_append, List.length_cons, ← Nat.add_assoc, Nat.add_sub_cancel,
        List.getElem?_append_right (Nat.le_add_right _ _), Nat.add_sub_cancel_left,
        List.getElem?_append_left (Nat.lt_succ_self _)]
      exact hlast
    refine ⟨(min first.1 left, max last.2 right), (hs.canonical_meets h).isHull hlast, ?_⟩
    show (if first.1 ≤ right then _ else _) = _
    rw [if_pos hfirst.2, upperBound_split h hlt.le hs, if_neg hpos, hlast_get]
    show (if left ≤ last.2 then _ else _) = _
    rw [if_pos (hs.meets last (List.mem_of_getElem? hlast)).1, hs.eq_append, erase_append]

/-- **What one insertion does to a canonical list.** -/
theorem insert_spec (h : Canonical s.intervals) (hle : left ≤ right) :
    Canonical (s.insert left right).intervals ∧
      union (s.insert left right).intervals = union s.intervals ∪ Set.Ico left right := by
  rcases hle.eq_or_lt with rfl | hlt
  · rw [insert, if_pos rfl, Set.Ico_self, Set.union_empty]
    exact ⟨h, rfl⟩
  · obtain ⟨A, B, C, hs⟩ := exists_split h left right
    obtain ⟨m, hm, hmerge⟩ := merge_split h hlt hs
    have hmerged : (if s.intervals.isEmpty then ((left, right), s.intervals)
        else merge left right s.intervals) = (m, A ++ C) := by
      rw [← hmerge, ite_eq_right_iff]
      intro hempty
      rw [List.isEmpty_iff.1 hempty]
      rfl
    have hcanonical := hs.canonical hm h hlt
    have hinsert : (s.insert left right).intervals = A ++ m :: C := by
      rw [insert, if_neg hlt.ne, hmerged]
      have hgaps := List.pairwise_append.1 hcanonical.gaps
      refine insert_append (fun I hI ↦ ?_) fun I hI ↦
        decide_eq_true ((List.pairwise_cons.1 hgaps.2.1).1 I hI)
      have hIm : I.2 < m.1 := hgaps.2.2 I hI m List.mem_cons_self
      have hI' : I.1 < I.2 := hcanonical.nonempty I (List.mem_append_left _ hI)
      have hm' : m.1 < m.2 := hcanonical.nonempty m (List.mem_append_right _ List.mem_cons_self)
      exact ⟨decide_eq_true hIm, decide_eq_false (not_lt.2 (hI'.trans (hIm.trans hm')).le)⟩
    rw [hinsert]
    exact ⟨hcanonical, hs.union_eq hm⟩

/-- A value is found exactly if it is in an interval of a canonical list. -/
theorem test_iff [Add α] [One α] (h : Canonical s.intervals) :
    s.test v = true ↔ v ∈ union s.intervals := by
  obtain ⟨A, B, C, hs⟩ := exists_split h v v
  have hget : s.intervals[A.length]? = (B ++ C)[0]? := by
    rw [hs.eq_append, List.getElem?_append_right le_rfl, Nat.sub_self]
  have hgaps := (List.pairwise_append.1 (hs.eq_append ▸ h.gaps)).2.1
  have hA : v ∉ union A := fun ⟨I, hI, _, hlt⟩ ↦ absurd (hs.before I hI) (not_lt.2 hlt.le)
  have hmem : v ∈ union s.intervals ↔ v ∈ union (B ++ C) := by
    rw [hs.eq_append, union_append]
    exact or_iff_right hA
  rw [hmem, test, lowerBound_split h le_rfl hs, hget]
  generalize hBC : B ++ C = l at hgaps
  match l with
  | [] =>
    rw [union_nil]
    exact iff_of_false Bool.false_ne_true (Set.notMem_empty v)
  | I :: l =>
    rw [union_cons]
    show decide (I.1 ≤ v ∧ v < I.2) = true ↔ _
    rw [decide_eq_true_iff]
    refine ⟨.inl, fun hv ↦ hv.resolve_right ?_⟩
    -- The first interval does not end before `v`, so the others begin behind it.
    rintro ⟨J, hJ, hle, -⟩
    have hI : v ≤ I.2 := by
      have hI : I ∈ B ++ C := hBC ▸ List.mem_cons_self
      rcases List.mem_append.1 hI with hB | hC
      · exact (hs.meets I hB).1
      · have : I ∈ s.intervals := hs.eq_append ▸ List.mem_append_right A (hBC ▸ List.mem_cons_self)
        exact ((hs.behind I hC).trans (h.nonempty I this)).le
    exact absurd (hI.trans_lt ((List.pairwise_cons.1 hgaps).1 J hJ)) (not_lt.2 hle)

/-! ### Every sequence of insertions

The run lemma: from the empty list on, every insertion keeps the list canonical and adds its
interval to the union. The canonical list of a union is unique, so the order of the insertions
cannot matter.
-/

/-- The last call of a sequence comes after the others. -/
theorem insertAll_append_singleton (calls : List (α × α)) (call : α × α) :
    insertAll (calls ++ [call]) = (insertAll calls).insert call.1 call.2 := by
  rw [insertAll, List.foldl_append]
  rfl

/-- After any calls the list is canonical, and its union is that of the intervals inserted. -/
theorem insertAll_canonical {calls : List (α × α)} (h : ∀ call ∈ calls, call.1 ≤ call.2) :
    Canonical (insertAll calls).toVector ∧ union (insertAll calls).toVector = union calls := by
  induction calls using List.reverseRecOn with
  | nil => exact ⟨.nil, rfl⟩
  | append_singleton calls call ih =>
    rw [List.forall_mem_append, List.forall_mem_singleton] at h
    obtain ⟨hcanonical, hunion⟩ := ih h.1
    have hstep := insert_spec hcanonical h.2
    rw [insertAll_append_singleton]
    refine ⟨hstep.1, hstep.2.trans ?_⟩
    show union (insertAll calls).toVector ∪ _ = _
    rw [hunion, union_append, union_cons, union_nil, Set.union_empty]

/-- **The intervals stored are the canonical form of the union.** What was inserted twice or in
another order is stored in the same way, and `test` tells what is in the union. -/
theorem insertAll_spec [Add α] [One α] (calls : List (α × α))
    (h : ∀ call ∈ calls, call.1 ≤ call.2) :
    Canonical (insertAll calls).toVector ∧
      union (insertAll calls).toVector = {v | ∃ call ∈ calls, v ∈ Set.Ico call.1 call.2} ∧
      (∀ calls', (∀ call, call ∈ calls' ↔ call ∈ calls) →
        (insertAll calls').toVector = (insertAll calls).toVector) ∧
      ∀ v, (insertAll calls).test v = true ↔ ∃ call ∈ calls, v ∈ Set.Ico call.1 call.2 := by
  obtain ⟨hcanonical, hunion⟩ := insertAll_canonical h
  refine ⟨hcanonical, hunion, fun calls' hcalls ↦ ?_, fun v ↦ ?_⟩
  · obtain ⟨hcanonical', hunion'⟩ := insertAll_canonical fun call hcall ↦
      h call ((hcalls call).1 hcall)
    refine hcanonical'.eq_of_union_eq hcanonical (hunion'.trans (Eq.trans ?_ hunion.symm))
    ext v
    exact exists_congr fun call ↦ and_congr_left' (hcalls call)
  · rw [test_iff hcanonical]
    exact Set.ext_iff.1 hunion v

/-- Three intervals, the last of which fills the gap between the others. -/
theorem insertAll_three :
    Canonical (insertAll [((1 : ℕ), 3), (5, 8), (3, 5)]).toVector ∧
      (insertAll [((1 : ℕ), 3), (5, 8), (3, 5)]).toVector = [(1, 8)] :=
  ⟨(insertAll_spec [((1 : ℕ), 3), (5, 8), (3, 5)] (by decide)).1, by decide⟩

end IntervalSetImpl

end TcpServer.Common
