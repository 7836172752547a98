import Mathlib.Data.List.Basic
import Mathlib.Data.List.Induction
import Mathlib.Tactic.Common

/-!
# Arrays that are written in place

A list with writes that have no result outside of it (`write`), and the loop that swaps the ends of
a segment until its two indices meet (`reverseLoop`). What a write or the loop does to a part of an
array is said about the array `pre ++ part ++ post`, so that the rest of the array is seen to stay
as it is.

Where the array is not written yet its cells are options, and reading it out takes a result for each
cell (`mapM_map_of_forall`, `map_eq_of_mapM`).
-/

namespace TcpServer.InPlace

variable {α : Type*}

/-- `xs[k] = x`. -/
def write (k : ℕ) (x : α) (xs : List α) : Option (List α) :=
  if k < xs.length then some (xs.set k x) else none

/-- `for (i, j; i < j; i++, j--) swap(xs[i], xs[j])`. -/
def reverseLoop (i j : ℕ) (xs : List α) : Option (List α) :=
  if i < j then do
    let c ← xs[i]?
    let d ← xs[j]?
    let xs ← write i d xs
    let xs ← write j c xs
    reverseLoop (i + 1) (j - 1) xs
  else some xs
termination_by j - i

variable {pre post : List α} {k : ℕ}

/-- A write behind a prefix replaces the element that is there. -/
theorem write_append (h : k = pre.length) (x y : α) :
    write k x (pre ++ y :: post) = some (pre ++ x :: post) := by
  have hlt : k < (pre ++ y :: post).length := by
    rw [List.length_append, List.length_cons]
    omega
  rw [write, if_pos hlt, h, List.set_append_right _ _ (Nat.le_refl _), Nat.sub_self]
  rfl

theorem getElem?_append_cons (h : k = pre.length) (x : α) : (pre ++ x :: post)[k]? = some x := by
  rw [h, List.getElem?_append_right (Nat.le_refl _), Nat.sub_self]
  rfl

/-- The loop reverses the segment between its two indices and nothing else. The induction takes an
element off each end. -/
theorem reverseLoop_append (mid : List α) {i j : ℕ} (hi : i = pre.length)
    (hj : j + 1 = pre.length + mid.length) :
    reverseLoop i j (pre ++ (mid ++ post)) = some (pre ++ (mid.reverse ++ post)) := by
  induction mid using List.bidirectionalRec generalizing pre post i j with
  | nil =>
    rw [List.length_nil] at hj
    rw [reverseLoop, if_neg (by omega), List.reverse_nil]
  | singleton x =>
    rw [List.length_singleton] at hj
    rw [reverseLoop, if_neg (by omega), List.reverse_singleton]
  | cons_append x mid y ih =>
    rw [List.length_cons, List.length_append, List.length_singleton] at hj
    have hleft (x : α) : pre ++ (x :: (mid ++ [y]) ++ post) =
        pre ++ x :: (mid ++ y :: post) := by simp
    have hright (x y : α) :
        pre ++ x :: (mid ++ y :: post) = (pre ++ x :: mid) ++ y :: post := by simp
    have hend : j = (pre ++ y :: mid).length := by
      rw [List.length_append, List.length_cons]
      omega
    have hnext : j - 1 + 1 = (pre ++ [y]).length + mid.length := by
      rw [List.length_append, List.length_singleton]
      omega
    have hsplit : (pre ++ y :: mid) ++ x :: post = (pre ++ [y]) ++ (mid ++ x :: post) := by simp
    have hxj : (pre ++ x :: (mid ++ y :: post))[j]? = some y := by
      rw [hright, getElem?_append_cons (by simpa using hend)]
    rw [hleft, reverseLoop, if_pos (by omega), getElem?_append_cons hi, Option.bind_eq_bind,
      Option.bind_some, hxj, Option.bind_some, write_append hi, Option.bind_eq_bind,
      Option.bind_some, hright, write_append hend, Option.bind_some, hsplit,
      ih (by rw [List.length_append, List.length_singleton, hi]) hnext]
    simp

/-! ### Reading a list of options

Reading an array out fails as soon as one cell has no value.
-/

variable {β : Type*}

/-- If each cell reads as it should, so does the array. -/
theorem mapM_map_of_forall {f : β → Option α} {g : α → β} {l : List α}
    (h : ∀ a ∈ l, f (g a) = some a) : (l.map g).mapM f = some l := by
  induction l with
  | nil => rfl
  | cons a l ih =>
    rw [List.map_cons, List.mapM_cons, h a List.mem_cons_self,
      ih fun b hb ↦ h b (List.mem_cons_of_mem a hb)]
    rfl

/-- An array in which every cell is written. -/
theorem mapM_map_some (l : List α) : (l.map some).mapM id = some l :=
  mapM_map_of_forall fun _ _ ↦ rfl

/-- Conversely, an array that was read has cells that read so. -/
theorem map_eq_of_mapM {f : β → Option α} {g : α → β} {l : List β} {m : List α}
    (h : ∀ b a, f b = some a → g a = b) (hm : l.mapM f = some m) : m.map g = l := by
  induction l generalizing m with
  | nil => exact Option.some_inj.1 hm ▸ rfl
  | cons b l ih =>
    rw [List.mapM_cons] at hm
    obtain ⟨a, ha, hm⟩ := Option.bind_eq_some_iff.1 hm
    obtain ⟨m', hm', hm⟩ := Option.bind_eq_some_iff.1 hm
    rw [← Option.some_inj.1 hm, List.map_cons, h b a ha, ih hm']

end TcpServer.InPlace
