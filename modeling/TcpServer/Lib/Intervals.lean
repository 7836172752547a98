import Mathlib.Order.Interval.Set.Basic
import Mathlib.Order.MinMax
import Mathlib.Tactic.Common

/-!
# Half-open intervals

A pair stands for the half-open interval from its first to its second component. A list of intervals
is canonical if each of them has an element and there is a gap between one and the next. Then it is
the only such list with its union (`Canonical.eq_of_union_eq`). An interval is added to a canonical
list by taking out the intervals that it overlaps or abuts and putting in their hull
(`Split.canonical`, `Split.union_eq`).

A linear order is enough, since an interval is only ever compared. That a list is canonical is a
statement about neighbours, but what is used of it is about all pairs, so the gaps are between any
two intervals (`List.Pairwise`).
-/

namespace TcpServer.Intervals

variable {α : Type*} [LinearOrder α]

/-- The elements of the intervals. -/
def union (l : List (α × α)) : Set α := {v | ∃ I ∈ l, I.1 ≤ v ∧ v < I.2}

instance (l : List (α × α)) : DecidablePred (· ∈ union l) := fun v ↦
  inferInstanceAs (Decidable (∃ I ∈ l, I.1 ≤ v ∧ v < I.2))

/-- Non-empty intervals in increasing order that neither overlap nor abut. -/
structure Canonical (l : List (α × α)) : Prop where
  /-- Every interval has an element. -/
  nonempty : ∀ I ∈ l, I.1 < I.2
  /-- Between any two intervals there is a gap. -/
  gaps : l.Pairwise fun I J ↦ I.2 < J.1

variable {l l' A B C : List (α × α)} {I J m : α × α} {left right v : α}

theorem mem_union : v ∈ union l ↔ ∃ I ∈ l, I.1 ≤ v ∧ v < I.2 := Iff.rfl

@[simp] theorem union_nil : union ([] : List (α × α)) = ∅ :=
  Set.eq_empty_of_forall_notMem fun _ ⟨_, h, _⟩ ↦ List.not_mem_nil h

theorem union_cons : union (I :: l) = Set.Ico I.1 I.2 ∪ union l := by
  ext v
  simp only [Set.mem_union, mem_union, List.mem_cons, or_and_right, exists_or, exists_eq_left,
    Set.mem_Ico]

/-- The union of two lists is that of both. -/
theorem union_append : union (l ++ l') = union l ∪ union l' := by
  ext v
  simp only [Set.mem_union, mem_union, List.mem_append, or_and_right, exists_or]

theorem end_le (hv : v ∉ union (I :: l)) (hle : I.1 ≤ v) : I.2 ≤ v := by
  by_contra hlt
  exact hv ⟨I, List.mem_cons_self, hle, not_le.1 hlt⟩

/-! ### Canonical lists

Uniqueness is by induction on one of the lists: the first interval is told from the union, by its
least element and by the first element that is missing behind it.
-/

namespace Canonical

theorem nil : Canonical ([] : List (α × α)) := ⟨fun _ h ↦ absurd h List.not_mem_nil, .nil⟩

theorem tail (h : Canonical (I :: l)) : Canonical l :=
  ⟨fun J hJ ↦ h.nonempty J (List.mem_cons_of_mem I hJ), (List.pairwise_cons.1 h.gaps).2⟩

theorem head_lt (h : Canonical (I :: l)) : I.1 < I.2 := h.nonempty I List.mem_cons_self

/-- Behind the first interval is a gap, and then the others. -/
theorem lt_of_mem_tail (h : Canonical (I :: l)) (hv : v ∈ union l) : I.2 < v := by
  obtain ⟨J, hJ, hle, -⟩ := hv
  exact ((List.pairwise_cons.1 h.gaps).1 J hJ).trans_le hle

theorem head_mem (h : Canonical (I :: l)) : I.1 ∈ union (I :: l) :=
  ⟨I, List.mem_cons_self, le_rfl, h.head_lt⟩

theorem head_le (h : Canonical (I :: l)) (hv : v ∈ union (I :: l)) : I.1 ≤ v := by
  rw [union_cons] at hv
  rcases hv with hI | hl
  · exact hI.1
  · exact (h.head_lt.trans (h.lt_of_mem_tail hl)).le

/-- The first interval ends at the first element that is not there. -/
theorem end_notMem (h : Canonical (I :: l)) : I.2 ∉ union (I :: l) := by
  rw [union_cons]
  rintro (hI | hl)
  · exact lt_irrefl _ hI.2
  · exact lt_irrefl _ (h.lt_of_mem_tail hl)

/-- The other intervals have the elements behind the first one. -/
theorem mem_tail_iff (h : Canonical (I :: l)) : v ∈ union l ↔ v ∈ union (I :: l) ∧ I.2 ≤ v := by
  rw [union_cons]
  constructor
  · exact fun hv ↦ ⟨.inr hv, (h.lt_of_mem_tail hv).le⟩
  · rintro ⟨hI | hl, hle⟩
    · exact absurd hI.2 (not_lt.2 hle)
    · exact hl

/-- **The canonical list of a union is unique.** -/
theorem eq_of_union_eq (h : Canonical l) (h' : Canonical l') (heq : union l = union l') :
    l = l' := by
  induction l generalizing l' with
  | nil =>
    match l' with
    | [] => rfl
    | J :: _ =>
      have hJ := h'.head_mem
      rw [← heq, union_nil] at hJ
      exact absurd hJ (Set.notMem_empty _)
  | cons I l ih =>
    match l' with
    | [] =>
      have hI := h.head_mem
      rw [heq, union_nil] at hI
      exact absurd hI (Set.notMem_empty _)
    | J :: l' =>
      have hfst : I.1 = J.1 := le_antisymm (h.head_le (heq ▸ h'.head_mem))
        (h'.head_le (heq ▸ h.head_mem))
      have hsnd : I.2 = J.2 := by
        refine le_antisymm (end_le (heq ▸ h'.end_notMem) ?_) (end_le (heq ▸ h.end_notMem) ?_)
        · exact hfst ▸ h'.head_lt.le
        · exact hfst ▸ h.head_lt.le
      have htail : union l = union l' := by
        ext v
        rw [h.mem_tail_iff, h'.mem_tail_iff, heq, hsnd]
      rw [Prod.ext hfst hsnd, ih h.tail h'.tail htail]

end Canonical

/-! ### Adding an interval

An interval is compared with those of the list at its ends only, so a canonical list is cut into
three parts. The middle part and the interval are replaced by their hull.
-/

/-- The list is split into the intervals before `[left, right]`, those that meet it, and those
behind it. -/
structure Split (left right : α) (l A B C : List (α × α)) : Prop where
  /-- The three parts are the list. -/
  eq_append : l = A ++ (B ++ C)
  /-- The first part ends before the interval begins. -/
  before : ∀ I ∈ A, I.2 < left
  /-- The second part overlaps or abuts. -/
  meets : ∀ I ∈ B, left ≤ I.2 ∧ I.1 ≤ right
  /-- The third part begins behind its end. -/
  behind : ∀ I ∈ C, right < I.1

/-- The smallest interval with all of `B` and `[left, right)` in it. -/
structure IsHull (left right : α) (B : List (α × α)) (m : α × α) : Prop where
  /-- The hull begins no later than they do. -/
  fst_le : m.1 ≤ left ∧ ∀ I ∈ B, m.1 ≤ I.1
  /-- It ends no earlier than they do. -/
  le_snd : right ≤ m.2 ∧ ∀ I ∈ B, I.2 ≤ m.2
  /-- It begins where one of them does. -/
  fst_eq : m.1 = left ∨ ∃ I ∈ B, m.1 = I.1
  /-- It ends where one of them does. -/
  snd_eq : m.2 = right ∨ ∃ I ∈ B, m.2 = I.2

/-- A canonical list can be split at any interval. -/
theorem exists_split (h : Canonical l) (left right : α) : ∃ A B C, Split left right l A B C := by
  induction l with
  | nil => exact ⟨[], [], [], rfl, by simp, by simp, by simp⟩
  | cons I l ih =>
    obtain ⟨A, B, C, hsplit⟩ := ih h.tail
    have hgap := (List.pairwise_cons.1 h.gaps).1
    rw [hsplit.eq_append] at hgap
    rcases lt_or_ge I.2 left with hlt | hge
    · exact ⟨I :: A, B, C, congrArg (I :: ·) hsplit.eq_append,
        List.forall_mem_cons.2 ⟨hlt, hsplit.before⟩, hsplit.meets, hsplit.behind⟩
    · -- Nothing ends before `left` any more.
      have hA : A = [] := by
        refine List.eq_nil_iff_forall_not_mem.2 fun J hJ ↦ ?_
        have hJl : J ∈ l := hsplit.eq_append ▸ List.mem_append_left _ hJ
        exact absurd (hsplit.before J hJ) (not_lt.2
          (hge.trans ((hgap J (List.mem_append_left _ hJ)).trans (h.tail.nonempty J hJl)).le))
      subst hA
      rcases le_or_gt I.1 right with hmeets | hbehind
      · exact ⟨[], I :: B, C, congrArg (I :: ·) hsplit.eq_append, by simp,
          List.forall_mem_cons.2 ⟨⟨hge, hmeets⟩, hsplit.meets⟩, hsplit.behind⟩
      · refine ⟨[], [], I :: l, rfl, by simp, by simp,
          List.forall_mem_cons.2 ⟨hbehind, fun J hJ ↦ ?_⟩⟩
        exact hbehind.trans (h.head_lt.trans ((List.pairwise_cons.1 h.gaps).1 J hJ))

/-- A part of a canonical list is canonical. -/
theorem Split.canonical_meets (hs : Split left right l A B C) (h : Canonical l) : Canonical B where
  nonempty I hI := h.nonempty I (hs.eq_append ▸ List.mem_append_right A (List.mem_append_left C hI))
  gaps := (List.pairwise_append.1 (List.pairwise_append.1 (hs.eq_append ▸ h.gaps)).2.1).1

/-- In a canonical list, the first interval starts before all others, and the last one ends behind
them. -/
theorem Canonical.isHull (h : Canonical (I :: l)) (hlast : (I :: l)[l.length]? = some J) :
    IsHull left right (I :: l) (min I.1 left, max J.2 right) where
  fst_le := by
    refine ⟨min_le_right _ _, fun K hK ↦ (min_le_left _ _).trans ?_⟩
    rcases List.mem_cons.1 hK with rfl | hK
    · exact le_rfl
    · exact (h.head_lt.trans ((List.pairwise_cons.1 h.gaps).1 K hK)).le
  le_snd := by
    refine ⟨le_max_right _ _, fun K hK ↦ le_trans ?_ (le_max_left _ _)⟩
    obtain ⟨i, hi, rfl⟩ := List.getElem_of_mem hK
    obtain ⟨hlen, rfl⟩ := List.getElem?_eq_some_iff.1 hlast
    rcases (Nat.le_of_lt_succ hi).lt_or_eq with hlt | rfl
    · exact ((List.pairwise_iff_getElem.1 h.gaps i l.length hi hlen hlt).trans
        (h.nonempty _ (List.getElem_mem hlen))).le
    · exact le_rfl
  fst_eq := by
    rcases min_choice I.1 left with hmin | hmin
    · exact .inr ⟨I, List.mem_cons_self, hmin⟩
    · exact .inl hmin
  snd_eq := by
    rcases max_choice J.2 right with hmax | hmax
    · exact .inr ⟨J, List.mem_of_getElem? hlast, hmax⟩
    · exact .inl hmax

/-- With the hull in place of what was met, the list is canonical. -/
theorem Split.canonical (hs : Split left right l A B C) (hm : IsHull left right B m)
    (h : Canonical l)
    (hlt : left < right) : Canonical (A ++ m :: C) := by
  have hgaps := h.gaps
  rw [hs.eq_append, List.pairwise_append, List.pairwise_append] at hgaps
  obtain ⟨hA, ⟨-, hC, hBC⟩, hABC⟩ := hgaps
  have hAm : ∀ I ∈ A, I.2 < m.1 := by
    intro I hI
    rcases hm.fst_eq with hleft | ⟨J, hJ, hfst⟩
    · exact hleft ▸ hs.before I hI
    · exact hfst ▸ hABC I hI J (List.mem_append_left _ hJ)
  have hmC : ∀ I ∈ C, m.2 < I.1 := by
    intro I hI
    rcases hm.snd_eq with hright | ⟨J, hJ, hsnd⟩
    · exact hright ▸ hs.behind I hI
    · exact hsnd ▸ hBC J hJ I hI
  constructor
  · intro I hI
    have hmem : ∀ J, J ∈ A ∨ J ∈ C → J ∈ l := fun J hJ ↦ by
      rw [hs.eq_append, List.mem_append, List.mem_append]
      exact hJ.imp_right .inr
    rw [List.mem_append, List.mem_cons] at hI
    rcases hI with hI | rfl | hI
    · exact h.nonempty I (hmem I (.inl hI))
    · exact hm.fst_le.1.trans_lt (hlt.trans_le hm.le_snd.1)
    · exact h.nonempty I (hmem I (.inr hI))
  · rw [List.pairwise_append, List.pairwise_cons]
    refine ⟨hA, ⟨hmC, hC⟩, fun I hI ↦ List.forall_mem_cons.2 ⟨hAm I hI, fun J hJ ↦ ?_⟩⟩
    exact hABC I hI J (List.mem_append_right _ hJ)

/-- The intervals that meet `[left, right]`, and it, leave no gap. -/
theorem Split.union_hull (hs : Split left right l A B C) (hm : IsHull left right B m) :
    Set.Ico m.1 m.2 = union B ∪ Set.Ico left right := by
  ext v
  constructor
  · rintro ⟨hfst, hsnd⟩
    rcases lt_or_ge v left with hleft | hleft
    · rcases hm.fst_eq with heq | ⟨I, hI, heq⟩
      · exact absurd hleft (not_lt.2 (heq ▸ hfst))
      · exact .inl ⟨I, hI, heq ▸ hfst, hleft.trans_le (hs.meets I hI).1⟩
    · rcases lt_or_ge v right with hright | hright
      · exact .inr ⟨hleft, hright⟩
      · rcases hm.snd_eq with heq | ⟨I, hI, heq⟩
        · exact absurd hsnd (not_lt.2 (heq ▸ hright))
        · exact .inl ⟨I, hI, (hs.meets I hI).2.trans hright, heq ▸ hsnd⟩
  · rintro (⟨I, hI, hle, hlt⟩ | ⟨hle, hlt⟩)
    · exact ⟨(hm.fst_le.2 I hI).trans hle, hlt.trans_le (hm.le_snd.2 I hI)⟩
    · exact ⟨hm.fst_le.1.trans hle, hlt.trans_le hm.le_snd.1⟩

/-- Its union has grown by the interval. -/
theorem Split.union_eq (hs : Split left right l A B C) (hm : IsHull left right B m) :
    union (A ++ m :: C) = union l ∪ Set.Ico left right := by
  rw [hs.eq_append, union_append, union_append, union_append, union_cons, hs.union_hull hm,
    Set.union_right_comm (union B), ← Set.union_assoc]

end TcpServer.Intervals
