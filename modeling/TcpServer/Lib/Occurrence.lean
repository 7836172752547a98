import Mathlib.Data.List.Infix
import Mathlib.Order.Bounds.Basic
import Mathlib.Data.Int.Notation
import Mathlib.Tactic.Common

/-!
# Occurrences in a list

`OccursAt needle hay i` says that `needle` stands in `hay` from index `i` on, and `memchr` finds the
first index of a single entry. A search that returns an index or `-1` is right if it returns the
`First` of the set of wanted indices; there is only one such result (`First.unique`), so two
searches for the same set agree however they go about it.

How an index is found is left to the search; what a search does with a prefix that it has passed,
and with a candidate that it has tried, is turned into statements about the set of occurrences
behind it.
-/

namespace TcpServer.Occurrence

variable {β : Type*}

/-- The needle stands at an index. -/
def OccursAt (needle hay : List β) (i : ℕ) : Prop := needle <+: hay.drop i

/-- The least element of `S`, or `-1` if there is none. -/
def First (S : Set ℕ) (r : ℤ) : Prop := (∃ i : ℕ, r = i ∧ IsLeast S i) ∨ r = -1 ∧ S = ∅

/-- There is one right result. -/
theorem First.unique {S : Set ℕ} {r r' : ℤ} (h : First S r) (h' : First S r') : r = r' := by
  rcases h with ⟨i, rfl, hi⟩ | ⟨rfl, hS⟩
  · rcases h' with ⟨j, rfl, hj⟩ | ⟨-, hS⟩
    · rw [hi.unique hj]
    · rw [hS] at hi
      exact absurd hi.1 (Set.notMem_empty i)
  · rcases h' with ⟨j, -, hj⟩ | ⟨rfl, -⟩
    · rw [hS] at hj
      exact absurd hj.1 (Set.notMem_empty j)
    · rfl

/-- An occurrence lies in the list. -/
theorem OccursAt.length_le {needle hay : List β} {i : ℕ} (h : OccursAt needle hay i)
    (hne : needle ≠ []) : i + needle.length ≤ hay.length := by
  have hle := List.IsPrefix.length_le h
  have hpos := List.length_pos_of_ne_nil hne
  rw [List.length_drop] at hle
  omega

/-- Occurrences behind a prefix. -/
theorem occursAt_append_iff (needle pre hay : List β) (i : ℕ) :
    OccursAt needle (pre ++ hay) (pre.length + i) ↔ OccursAt needle hay i := by
  rw [OccursAt, OccursAt, List.drop_append, List.drop_eq_nil_of_le (by omega), List.nil_append,
    Nat.add_sub_cancel_left]

/-- An occurrence begins with the first entry. -/
theorem OccursAt.getElem?_eq {c : β} {rest hay : List β} {i : ℕ} (h : OccursAt (c :: rest) hay i) :
    hay[i]? = some c := by
  obtain ⟨t, ht⟩ := h
  have := congrArg (·[0]?) ht
  simpa using this.symm

/-- An occurrence at the first entry of what is behind a prefix. -/
theorem occursAt_cons_iff (c : β) (rest pre hay : List β) :
    OccursAt (c :: rest) (pre ++ c :: hay) pre.length ↔ rest <+: hay := by
  have := occursAt_append_iff (c :: rest) pre (c :: hay) 0
  rw [Nat.add_zero] at this
  rw [this, OccursAt, List.drop_zero, List.cons_prefix_cons]
  exact ⟨And.right, fun h ↦ ⟨rfl, h⟩⟩

section Memchr

variable [DecidableEq β]

/-- The index of the first `c`. -/
def memchr (hay : List β) (c : β) : Option ℕ := hay.findIdx? (· = c)

/-- There is no index without an occurrence. -/
theorem memchr_eq_none_iff {hay : List β} {c : β} : memchr hay c = none ↔ c ∉ hay := by
  rw [memchr, List.findIdx?_eq_none_iff]
  refine ⟨fun h hc ↦ ?_, fun h x hx ↦ ?_⟩
  · have := h c hc
    simp at this
  · rw [decide_eq_false_iff_not]
    rintro rfl
    exact h hx

/-- It splits the list at the first `c`. -/
theorem memchr_eq_some_iff {hay : List β} {c : β} {k : ℕ} :
    memchr hay c = some k ↔ ∃ pre post, hay = pre ++ c :: post ∧ pre.length = k ∧ c ∉ pre := by
  rw [memchr, List.findIdx?_eq_some_iff_getElem]
  constructor
  · rintro ⟨hk, hc, hbefore⟩
    have hget : hay[k] = c := by simpa using hc
    refine ⟨hay.take k, hay.drop (k + 1), ?_, List.length_take_of_le (Nat.le_of_lt hk),
      fun hmem ↦ ?_⟩
    · rw [← hget, List.getElem_cons_drop, List.take_append_drop]
    · obtain ⟨j, hj, hcj⟩ := List.getElem_of_mem hmem
      have hlt : j < k := by
        rw [List.length_take] at hj
        omega
      rw [List.getElem_take] at hcj
      exact hbefore j hlt (by simp [hcj])
  · rintro ⟨pre, post, rfl, rfl, hpre⟩
    refine ⟨by simp, by simp, fun j hj ↦ ?_⟩
    rw [List.getElem_append_left hj]
    have hne : pre[j] ≠ c := fun h ↦ hpre (h ▸ List.getElem_mem hj)
    simpa using hne

end Memchr

end TcpServer.Occurrence
