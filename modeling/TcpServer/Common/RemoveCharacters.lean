import TcpServer.Common.IntervalSet
import TcpServer.Lib.Indices

/-!
# Characters taken out of a string

`StringUtil::removeCharacters` joins the pieces of a string between the intervals of a set. It goes
through the intervals in order, so it rests on the form in which the set stores them: each begins
behind the end of the one before.

What is kept is said by indices, without the intervals (`keep` of the library): the characters whose
index is in none of the intervals inserted. The loop is followed with the characters behind the last
interval and those still to be looked at (`pieces_spec`). Since `substr` throws behind the end of
the string, it is also needed that the stored intervals end where the inserted ones do
(`bounds_of_union_le`).
-/

namespace TcpServer.Common

open Intervals Indices

variable {β : Type*}

/-- `string_view::substr`, which throws if `pos` is behind the end. -/
def substr (str : List β) (pos n : ℕ) : Option (List β) :=
  if pos ≤ str.length then some ((str.drop pos).take n) else none

/-- The loop and the last piece, with what is behind an interval at `pos`. The subtraction does not
wrap around where the intervals are in order. -/
def pieces (str : List β) : ℕ → List (ℕ × ℕ) → Option (List (List β))
  | pos, [] => if pos ≠ str.length then (substr str pos str.length).map ([·]) else some []
  | pos, (leftBound, rightBound) :: intervals =>
    if leftBound ≠ pos then
      (substr str pos (leftBound - pos)).bind fun piece ↦
        (pieces str rightBound intervals).map (piece :: ·)
    else pieces str rightBound intervals

/-- `StringUtil::removeCharacters`. -/
def removeCharacters (str : List β) (set : IntervalSetImpl ℕ) : Option (List β) :=
  (pieces str 0 set.toVector).map List.flatten

variable {str : List β} {pos leftBound rightBound : ℕ} {intervals : List (ℕ × ℕ)}

/-- Up to the end of the first interval, the characters before it are kept. -/
theorem keep_cons (h : Canonical ((leftBound, rightBound) :: intervals)) (hpos : pos ≤ leftBound)
    (hle : rightBound ≤ str.length) :
    keep (fun i ↦ decide (i ∉ union ((leftBound, rightBound) :: intervals))) pos (str.drop pos) =
      (str.drop pos).take (leftBound - pos) ++
        keep (fun i ↦ decide (i ∉ union intervals)) rightBound (str.drop rightBound) := by
  have hlt : leftBound < rightBound := h.head_lt
  have hbefore : str.drop pos = (str.drop pos).take (leftBound - pos) ++ str.drop leftBound := by
    conv_lhs => rw [← List.take_append_drop (leftBound - pos) (str.drop pos)]
    rw [List.drop_drop, Nat.add_sub_cancel' hpos]
  have hwithin : str.drop leftBound =
      (str.drop leftBound).take (rightBound - leftBound) ++ str.drop rightBound := by
    conv_lhs => rw [← List.take_append_drop (rightBound - leftBound) (str.drop leftBound)]
    rw [List.drop_drop, Nat.add_sub_cancel' hlt.le]
  have hlength : ((str.drop pos).take (leftBound - pos)).length = leftBound - pos := by
    rw [List.length_take, List.length_drop]
    omega
  have hlength' : ((str.drop leftBound).take (rightBound - leftBound)).length =
      rightBound - leftBound := by
    rw [List.length_take, List.length_drop]
    omega
  conv_lhs => rw [hbefore, hwithin]
  rw [keep_append, keep_append, hlength, hlength', Nat.add_sub_cancel' hpos,
    Nat.add_sub_cancel' hlt.le]
  -- The three parts: before the interval, in it, and behind it.
  have hkeep : keep (fun i ↦ decide (i ∉ union ((leftBound, rightBound) :: intervals))) pos
      ((str.drop pos).take (leftBound - pos)) = (str.drop pos).take (leftBound - pos) := by
    refine keep_eq_self fun i hi hlt' ↦ decide_eq_true fun hmem ↦ ?_
    have : leftBound ≤ i := h.head_le hmem
    rw [hlength] at hlt'
    omega
  have hdrop : keep (fun i ↦ decide (i ∉ union ((leftBound, rightBound) :: intervals))) leftBound
      ((str.drop leftBound).take (rightBound - leftBound)) = [] := by
    refine keep_eq_nil fun i hi hlt' ↦ decide_eq_false (not_not_intro ?_)
    rw [hlength'] at hlt'
    exact ⟨_, List.mem_cons_self, hi, by omega⟩
  have hrest : keep (fun i ↦ decide (i ∉ union ((leftBound, rightBound) :: intervals))) rightBound
      (str.drop rightBound) = keep (fun i ↦ decide (i ∉ union intervals)) rightBound
        (str.drop rightBound) := by
    refine keep_congr fun i hi _ ↦ ?_
    have : i ∈ union intervals ↔ i ∈ union ((leftBound, rightBound) :: intervals) :=
      h.mem_tail_iff.trans (and_iff_left hi)
    rw [decide_eq_decide, this]
  rw [hkeep, hdrop, hrest, List.nil_append]

/-- The loop from `pos` on keeps the characters that are in no interval. -/
theorem pieces_spec (h : Canonical intervals) (hpos : pos ≤ str.length)
    (hbounds : ∀ I ∈ intervals, pos ≤ I.1 ∧ I.2 ≤ str.length) :
    ∃ ps, pieces str pos intervals = some ps ∧
      ps.flatten = keep (fun i ↦ decide (i ∉ union intervals)) pos (str.drop pos) := by
  induction intervals generalizing pos with
  | nil =>
    have hkeep : keep (fun i ↦ decide (i ∉ union ([] : List (ℕ × ℕ)))) pos (str.drop pos) =
        str.drop pos := by
      refine keep_eq_self fun i _ _ ↦ decide_eq_true ?_
      rw [union_nil]
      exact Set.notMem_empty i
    rw [hkeep, pieces]
    split_ifs with hend
    · refine ⟨[str.drop pos], ?_, List.flatten_singleton⟩
      rw [substr, if_pos hpos, List.take_of_length_le (List.length_drop.trans_le (Nat.sub_le _ _))]
      rfl
    · rw [not_not.1 hend]
      exact ⟨[], rfl, (List.drop_length (l := str)).symm⟩
  | cons I intervals ih =>
    obtain ⟨leftBound, rightBound⟩ := I
    rw [List.forall_mem_cons] at hbounds
    obtain ⟨⟨hleft, hright⟩, hbounds⟩ := hbounds
    have hgap := (List.pairwise_cons.1 h.gaps).1
    obtain ⟨ps, hps, hflatten⟩ := ih h.tail hright fun J hJ ↦ ⟨(hgap J hJ).le, (hbounds J hJ).2⟩
    rw [keep_cons h hleft hright, ← hflatten, pieces, hps]
    split_ifs with hpiece
    · rw [substr, if_pos hpos]
      exact ⟨_, rfl, rfl⟩
    · rw [not_not.1 hpiece, Nat.sub_self]
      exact ⟨ps, rfl, rfl⟩

/-- The intervals stored do not go further than what was inserted. -/
theorem bounds_of_union_le {n : ℕ} (h : Canonical intervals)
    (hunion : ∀ i ∈ union intervals, i < n) :
    ∀ I ∈ intervals, I.2 ≤ n := by
  intro I hI
  have hlt := h.nonempty I hI
  have hlast := hunion (I.2 - 1) ⟨I, hI, by omega, by omega⟩
  omega

/-- **Exactly the characters at the indices inserted are taken out**, so the string gets shorter by
as many as there are. -/
theorem removeCharacters_spec (str : List β) (calls : List (ℕ × ℕ))
    (h : ∀ call ∈ calls, call.1 ≤ call.2 ∧ call.2 ≤ str.length) :
    ∃ ret, removeCharacters str (.insertAll calls) = some ret ∧
      ret = (str.zipIdx.filter fun c ↦ decide (c.2 ∉ union calls)).map Prod.fst ∧
      ret.length = str.length - (union calls).ncard := by
  obtain ⟨hcanonical, hunion⟩ := IntervalSetImpl.insertAll_canonical fun call hcall ↦
    (h call hcall).1
  have hunion_lt : ∀ i ∈ union calls, i < str.length := by
    rintro i ⟨call, hcall, -, hlt⟩
    exact hlt.trans_le (h call hcall).2
  have hbounds := bounds_of_union_le hcanonical (hunion ▸ hunion_lt)
  obtain ⟨ps, hps, hflatten⟩ := pieces_spec hcanonical (Nat.zero_le str.length) fun I hI ↦
    ⟨Nat.zero_le _, hbounds I hI⟩
  have hkeep : ps.flatten = keep (fun i ↦ decide (i ∉ union calls)) 0 str := by
    rw [hflatten, List.drop_zero]
    refine keep_congr fun i _ _ ↦ ?_
    rw [decide_eq_decide, hunion]
  refine ⟨ps.flatten, ?_, hkeep, ?_⟩
  · rw [removeCharacters, hps]
    rfl
  · rw [hkeep]
    exact length_keep hunion_lt

/-- An interval at the beginning, two that overlap, and one at the end. -/
theorem removeCharacters_abcdefgh :
    ∃ ret, removeCharacters "abcdefgh".toList (.insertAll [(3, 5), (0, 1), (4, 6), (7, 8)]) =
      some ret ∧
      ret = "bcg".toList ∧ ret.length = 8 - (union [(3, 5), (0, 1), (4, 6), (7, 8)]).ncard := by
  obtain ⟨ret, hret, heq, hlength⟩ :=
    removeCharacters_spec "abcdefgh".toList [(3, 5), (0, 1), (4, 6), (7, 8)] (by decide)
  exact ⟨ret, hret, heq.trans (by decide), hlength⟩

end TcpServer.Common
