import Mathlib.Algebra.Ring.Nat
import Mathlib.Data.Finset.Card
import Mathlib.Data.List.Basic
import Mathlib.Order.Interval.Finset.Nat
import Mathlib.Tactic.Common

/-!
# Cursors

A cursor in a sequence of ranges is an index of a range and an offset into it. `At lens n index
offset` says that it stands `n` places behind the beginning, where `lens` are the lengths of the
ranges. A cursor may stand at the end of a range only for the ranges without places; otherwise a
cursor that gets to the end of a range goes on to the next one (`At.advance`).

A place is in one range and no other (`Within.unique`), every place is in one (`exists_within`), and
a range has as many places as it is long (`card_within`).

A cursor is given by what it has read, so its two components are determined by one number wherever
the ranges are not empty; the relation is used in place of a function because an empty range may be
stepped over early or late.
-/

namespace TcpServer.Cursor

/-- The cursor stands behind `n` places. -/
structure At (lens : List ℕ) (n index offset : ℕ) : Prop where
  /-- The places before the range and those in it. -/
  place : n = (lens.take index).sum + offset
  /-- The offset is within the range. -/
  offset_le : ∀ len, lens[index]? = some len → offset ≤ len
  /-- Behind the last range there is nothing to be offset in. -/
  offset_end : lens.length ≤ index → offset = 0

theorem at_zero (lens : List ℕ) : At lens 0 0 0 :=
  ⟨rfl, fun _ _ ↦ Nat.zero_le _, fun _ ↦ rfl⟩

theorem sum_take_succ {lens : List ℕ} {index len : ℕ} (h : lens[index]? = some len) :
    (lens.take (index + 1)).sum = (lens.take index).sum + len := by
  rw [List.take_add_one, h, Option.toList_some, List.sum_append, List.sum_singleton]

variable {lens : List ℕ} {n index offset : ℕ}

/-- Before the last place there is a range under the cursor. -/
theorem At.lt_length (h : At lens n index offset) (hn : n < lens.sum) : index < lens.length := by
  by_contra hge
  have hplace := h.place
  rw [h.offset_end (by omega), List.take_of_length_le (by omega)] at hplace
  omega

/-- Behind the last range the cursor is at the end. -/
theorem At.eq_sum (h : At lens n index offset) (hindex : lens.length ≤ index) : n = lens.sum := by
  have hplace := h.place
  rwa [h.offset_end hindex, List.take_of_length_le hindex] at hplace

/-- The cursor is not behind the last place. -/
theorem At.le_sum (h : At lens n index offset) : n ≤ lens.sum := by
  rcases Nat.lt_or_ge index lens.length with hlt | hge
  · have hget : lens[index]? = some lens[index] := List.getElem?_eq_getElem hlt
    have hoffset := h.offset_le _ hget
    have hplace := h.place
    have hsplit := congrArg List.sum (List.take_append_drop (index + 1) lens)
    rw [List.sum_append, sum_take_succ hget] at hsplit
    omega
  · exact Nat.le_of_eq (h.eq_sum hge)

/-- A step within a range, or to the next one. -/
theorem At.advance (h : At lens n index offset) {len k : ℕ} (hlen : lens[index]? = some len)
    (hk : offset + k ≤ len) :
    At lens (n + k) (if offset + k = len then index + 1 else index)
      (if offset + k = len then 0 else offset + k) := by
  have hplace := h.place
  split_ifs with hend
  · refine ⟨?_, fun _ _ ↦ Nat.zero_le _, fun _ ↦ rfl⟩
    rw [sum_take_succ hlen]
    omega
  · refine ⟨by omega, fun len' hlen' ↦ ?_, fun hge ↦ ?_⟩
    · obtain rfl := Option.some.inj (hlen.symm.trans hlen')
      exact hk
    · have := (List.getElem?_eq_some_iff.1 hlen).1
      omega

/-! ### The range of a place

A place belongs to the range whose first place is not behind it and whose end is. For a list of
lengths this partitions the places up to the sum.
-/

/-- The place `n` is in the range with this index. -/
def Within (lens : List ℕ) (n index : ℕ) : Prop :=
  (lens.take index).sum ≤ n ∧ n < (lens.take (index + 1)).sum

instance (lens : List ℕ) (n index : ℕ) : Decidable (Within lens n index) :=
  inferInstanceAs (Decidable (_ ∧ _))

theorem not_within_nil : ¬ Within [] n index := by
  rintro ⟨-, hlt⟩
  rw [List.take_nil] at hlt
  exact Nat.not_lt_zero n hlt

theorem within_cons_zero {len : ℕ} : Within (len :: lens) n 0 ↔ n < len :=
  and_iff_right (Nat.zero_le n)

/-- The ranges behind the first one have their places shifted. -/
theorem within_cons_succ {len : ℕ} :
    Within (len :: lens) n (index + 1) ↔ len ≤ n ∧ Within lens (n - len) index := by
  rw [Within, Within, List.take_succ_cons, List.take_succ_cons, List.sum_cons, List.sum_cons]
  omega

theorem sum_take_le_sum_take (lens : List ℕ) {i j : ℕ} (h : i ≤ j) :
    (lens.take i).sum ≤ (lens.take j).sum := by
  obtain ⟨k, rfl⟩ := Nat.exists_eq_add_of_le h
  rw [List.take_add, List.sum_append]
  exact Nat.le_add_right _ _

/-- No place is in two ranges. -/
theorem Within.unique {i j : ℕ} (hi : Within lens n i) (hj : Within lens n j) : i = j := by
  have hij : ¬ i < j := fun h ↦ by
    have := sum_take_le_sum_take lens (Nat.succ_le_of_lt h)
    exact absurd hi.2 (Nat.not_lt.2 (this.trans hj.1))
  have hji : ¬ j < i := fun h ↦ by
    have := sum_take_le_sum_take lens (Nat.succ_le_of_lt h)
    exact absurd hj.2 (Nat.not_lt.2 (this.trans hi.1))
  exact Nat.le_antisymm (Nat.not_lt.1 hji) (Nat.not_lt.1 hij)

/-- Every place before the end is in some range. -/
theorem exists_within (h : n < lens.sum) : ∃ index, Within lens n index := by
  induction lens generalizing n with
  | nil => exact absurd h (Nat.not_lt_zero n)
  | cons len lens ih =>
    rcases Nat.lt_or_ge n len with hlt | hge
    · exact ⟨0, within_cons_zero.2 hlt⟩
    · rw [List.sum_cons] at h
      obtain ⟨index, hindex⟩ := ih (n := n - len) (by omega)
      exact ⟨index + 1, within_cons_succ.2 ⟨hge, hindex⟩⟩

/-- A range without places has no place in it. -/
theorem Within.pos (h : Within lens n index) : ∃ len, lens[index]? = some len ∧ 0 < len := by
  rcases hget : lens[index]? with _ | len
  · have hle : lens.length ≤ index := List.getElem?_eq_none_iff.1 hget
    obtain ⟨hge, hlt⟩ := h
    rw [List.take_of_length_le hle] at hge
    rw [List.take_of_length_le (Nat.le_succ_of_le hle)] at hlt
    exact absurd hlt (Nat.not_lt.2 hge)
  · refine ⟨len, rfl, ?_⟩
    have := h.2
    rw [sum_take_succ hget] at this
    have := h.1
    omega

/-- A range has as many places as it is long. -/
theorem card_within {len : ℕ} (h : lens[index]? = some len) :
    ((Finset.range lens.sum).filter (Within lens · index)).card = len := by
  have htotal : (lens.take (index + 1)).sum ≤ lens.sum := by
    have hsplit := congrArg List.sum (List.take_append_drop (index + 1) lens)
    rw [List.sum_append] at hsplit
    omega
  have heq : (Finset.range lens.sum).filter (Within lens · index) =
      Finset.Ico (lens.take index).sum ((lens.take index).sum + len) := by
    ext n
    rw [Finset.mem_filter, Finset.mem_range, Finset.mem_Ico, Within, sum_take_succ h]
    rw [sum_take_succ h] at htotal
    omega
  rw [heq, Nat.card_Ico, Nat.add_sub_cancel_left]

end TcpServer.Cursor
