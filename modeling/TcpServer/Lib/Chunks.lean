import Mathlib.Algebra.Order.Group.Nat
import Mathlib.Data.List.Basic
import Mathlib.Tactic.Common

/-!
# Chunks of a list

`InChunks g l ls` says that `l` was cut into the lists `ls`, `g` elements at a time and until
nothing was left. The chunks are all of the list (`InChunks.flatten`), there are as many as it takes
(`InChunks.length_eq`), and only the last of them may be short (`InChunks.getElem?`).

The relation follows the way in which a loop takes chunks off the front, so that a loop is shown to
produce chunks by induction on its iterations, and everything that is wanted of the chunks is proved
here by induction on the relation.
-/

namespace TcpServer

variable {α : Type*}

/-- The list is cut off chunk by chunk, up to its end. -/
inductive InChunks (g : ℕ) : List α → List (List α) → Prop
  | nil : InChunks g [] []
  | cons {l : List α} {ls : List (List α)} (hne : l ≠ []) (h : InChunks g (l.drop g) ls) :
    InChunks g l (l.take g :: ls)

namespace InChunks

variable {g : ℕ} {l : List α} {ls : List (List α)}

/-- The chunks put together again. -/
theorem flatten (h : InChunks g l ls) : ls.flatten = l := by
  induction h with
  | nil => rfl
  | @cons l ls hne h ih => rw [List.flatten_cons, ih, List.take_append_drop]

/-- Nothing is cut into nothing. -/
theorem eq_nil_iff (h : InChunks g l ls) : ls = [] ↔ l = [] := by
  cases h with
  | nil => exact iff_of_true rfl rfl
  | cons hne h => exact iff_of_false (List.cons_ne_nil _ _) hne

/-- The number of chunks is the number of elements over `g`, rounded up. -/
theorem length_eq (hg : 0 < g) (h : InChunks g l ls) : ls.length = (l.length + g - 1) / g := by
  induction h with
  | nil =>
    show 0 = (0 + g - 1) / g
    rw [Nat.zero_add, Nat.div_eq_of_lt (Nat.sub_lt hg Nat.zero_lt_one)]
  | @cons l ls hne h ih =>
    have hpos : 0 < l.length := List.length_pos_of_ne_nil hne
    rw [List.length_cons, ih, List.length_drop]
    rcases Nat.le_total g l.length with hle | hle
    · have hsum : l.length + g - 1 = l.length - g + g - 1 + g := by omega
      rw [hsum, Nat.add_div_right _ hg]
    · have hsum : l.length + g - 1 = l.length - 1 + g := by omega
      rw [hsum, Nat.add_div_right _ hg, Nat.sub_eq_zero_of_le hle, Nat.zero_add,
        Nat.div_eq_of_lt (Nat.sub_lt hg Nat.zero_lt_one), Nat.div_eq_of_lt (by omega)]

/-- Every chunk but the last has `g` elements, and the last has at least one and at most `g`. -/
theorem getElem? (hg : 0 < g) (h : InChunks g l ls) {i : ℕ} {c : List α} (hc : ls[i]? = some c) :
    (i + 1 < ls.length → c.length = g) ∧ 1 ≤ c.length ∧ c.length ≤ g := by
  induction h generalizing i with
  | nil => exact absurd hc.symm (Option.some_ne_none _)
  | @cons l ls hne h ih =>
    have hpos : 0 < l.length := List.length_pos_of_ne_nil hne
    cases i with
    | zero =>
      obtain rfl : l.take g = c := Option.some.inj hc
      rw [List.length_take]
      refine ⟨fun hmore ↦ ?_, by omega, Nat.min_le_left _ _⟩
      -- There is another chunk, so something is left behind this one.
      have hls : ls ≠ [] := by
        rintro rfl
        exact absurd hmore (Nat.lt_irrefl _)
      have hdrop : l.drop g ≠ [] := h.eq_nil_iff.not.1 hls
      have hlt : g < l.length := Nat.lt_of_not_le (List.drop_eq_nil_iff.not.1 hdrop)
      exact Nat.min_eq_left hlt.le
    | succ i =>
      obtain ⟨hfull, hrange⟩ := ih (i := i) hc
      exact ⟨fun hmore ↦ hfull (Nat.lt_of_succ_lt_succ hmore), hrange⟩

end InChunks

end TcpServer
