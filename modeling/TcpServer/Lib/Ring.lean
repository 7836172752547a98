import Mathlib.Data.List.Rotate
import Mathlib.Tactic.Common

/-!
# Rings

A ring buffer keeps a sequence in an array that is read from a start index on, with one wrap at the
end. Read so, the array `l` is the list `l.rotate start`, and the sequence is the first part of it.
The rules here say what the elementary moves of a ring buffer do to `l.rotate start`, so that the
sequence is computed without looking at indices:

* reading or writing the slot at `wrap l.length (start + i)` is reading or writing entry `i`
  (`getD_wrap`, `rotate_set_wrap`);
* moving the start by one moves an entry from one end to the other (`rotate_wrap_succ`,
  `rotate_pred`);
* copying slots in order, with the same wrap, reads the entries in order (`walk_eq_take`).

No capacity is fixed, and the ring may be of any length; an index is only ever compared with the
length and reduced once, as the code of a ring buffer does it, so the lemmas need the index to be
below twice the length.
-/

namespace TcpServer.Ring

variable {β : Type*}

/-- An index that has run at most one length past the end. -/
def wrap (capacity i : ℕ) : ℕ := if i ≥ capacity then i - capacity else i

/-- Such an index is reduced modulo the length. -/
theorem wrap_eq_mod {capacity i : ℕ} (h : i < 2 * capacity) : wrap capacity i = i % capacity := by
  rw [wrap]
  split_ifs with hi
  · rw [Nat.mod_eq_sub_mod hi, Nat.mod_eq_of_lt (by omega)]
  · rw [Nat.mod_eq_of_lt (by omega)]

theorem wrap_lt {capacity i : ℕ} (h : i < 2 * capacity) : wrap capacity i < capacity := by
  rw [wrap]
  split_ifs <;> omega

theorem wrap_succ {capacity i : ℕ} (h : i < capacity) :
    wrap capacity (i + 1) = if i + 1 = capacity then 0 else i + 1 := by
  rw [wrap]
  split_ifs <;> omega

/-- The loop that runs through the slots from `start` on. -/
theorem wrap_add_succ {capacity start i : ℕ} (hs : start < capacity) (hi : i < capacity) :
    (if wrap capacity (start + i) + 1 = capacity then 0 else wrap capacity (start + i) + 1) =
      wrap capacity (start + (i + 1)) := by
  unfold wrap
  split_ifs <;> omega

/-- Reading a slot. -/
theorem getElem?_wrap {l : List β} {start i : ℕ} (hs : start < l.length) (hi : i < l.length) :
    l[wrap l.length (start + i)]? = (l.rotate start)[i]? := by
  rw [wrap_eq_mod (by omega), List.getElem?_rotate hi, Nat.add_comm]

/-- Reading a slot is reading an entry. -/
theorem getD_wrap {l : List β} {start i : ℕ} (hs : start < l.length) (hi : i < l.length) (d : β) :
    l.getD (wrap l.length (start + i)) d = (l.rotate start).getD i d := by
  rw [List.getD_eq_getElem?_getD, List.getD_eq_getElem?_getD, getElem?_wrap hs hi]

theorem getD_start {l t : List β} {start : ℕ} (hs : start < l.length) {a : β}
    (h : l.rotate start = a :: t) (d : β) : l.getD start d = a := by
  have hget := getD_wrap hs (i := 0) (by omega) d
  rwa [Nat.add_zero, wrap, if_neg (by omega), h, List.getD_cons_zero] at hget

/-- Writing a slot. -/
theorem rotate_set_wrap {l : List β} {start i : ℕ} (hs : start < l.length) (hi : i < l.length)
    (x : β) : (l.set (wrap l.length (start + i)) x).rotate start = (l.rotate start).set i x := by
  refine List.ext_getElem (by simp) fun j h₁ h₂ ↦ ?_
  have hj : j < l.length := by simpa using h₁
  rw [List.getElem_rotate, List.getElem_set, List.getElem_set, List.getElem_rotate]
  simp only [List.length_set]
  -- Two indices of the window are the same slot only if they are equal.
  have hinj : wrap l.length (start + i) = (j + start) % l.length ↔ i = j := by
    rw [← wrap_eq_mod (by omega)]
    unfold wrap
    split_ifs <;> omega
  simp only [hinj]

theorem rotate_set {l : List β} {start : ℕ} (hs : start < l.length) (x : β) :
    (l.set start x).rotate start = (l.rotate start).set 0 x := by
  have := rotate_set_wrap hs (i := 0) (by omega) x
  rwa [Nat.add_zero, wrap, if_neg (by omega)] at this

/-- Moving the start forward takes an entry to the other end. -/
theorem rotate_wrap_succ {l t : List β} {start : ℕ} (hs : start < l.length) {a : β}
    (h : l.rotate start = a :: t) : l.rotate (wrap l.length (start + 1)) = t ++ [a] := by
  rw [wrap_eq_mod (by omega), List.rotate_mod, ← List.rotate_rotate, h]
  exact List.rotate_append_length_eq [a] t

/-- Moving the start back takes it the other way. -/
theorem rotate_pred {l t : List β} {start : ℕ} (hs : start < l.length) {a : β}
    (h : l.rotate start = t ++ [a]) :
    l.rotate (if start = 0 then l.length - 1 else start - 1) = a :: t := by
  have hlen : t.length + 1 = l.length := by
    have := congrArg List.length h
    simpa using this.symm
  have hback : l.rotate (start + t.length) = a :: t := by
    rw [← List.rotate_rotate, h]
    exact List.rotate_append_length_eq t [a]
  rw [← hback, ← List.rotate_mod l (start + t.length)]
  congr 1
  split_ifs with h0
  · rw [Nat.mod_eq_of_lt (by omega)]
    omega
  · rw [Nat.mod_eq_sub_mod (by omega), Nat.mod_eq_of_lt (by omega)]
    omega

/-- The `n` slots from `src` on, in order; the loop that copies a ring into a larger one. -/
def walk (l : List β) (d : β) : ℕ → ℕ → List β
  | 0, _ => []
  | n + 1, src => l.getD src d :: walk l d n (if src + 1 = l.length then 0 else src + 1)

@[simp] theorem length_walk (l : List β) (d : β) (n src : ℕ) : (walk l d n src).length = n := by
  induction n generalizing src with
  | zero => rfl
  | succ n ih => rw [walk, List.length_cons, ih]

/-- The walk reads the entries in order. -/
theorem walk_eq_take {l : List β} (d : β) {n src : ℕ} (hs : src < l.length) (hn : n ≤ l.length) :
    walk l d n src = (l.rotate src).take n := by
  -- The rest of the walk is read from the next start, so the induction is over all starts.
  suffices h : ∀ n src, src < l.length → n ≤ l.length →
      walk l d n src = (List.range n).map fun i ↦ (l.rotate src).getD i d by
    refine (h n src hs hn).trans (List.ext_getElem (by simp [hn]) fun i h₁ h₂ ↦ ?_)
    have hi : i < (l.rotate src).length := by
      simp at h₁ ⊢
      omega
    simp [List.getD_eq_getElem?_getD, List.getElem?_eq_getElem hi]
  intro n
  induction n with
  | zero => exact fun _ _ _ ↦ rfl
  | succ n ih =>
    intro src hs hn
    rw [walk, ← wrap_succ hs, ih _ (wrap_lt (by omega)) (by omega), List.range_succ_eq_map,
      List.map_cons, List.map_map]
    congr 1
    · have := getD_wrap hs (i := 0) (by omega) d
      rwa [Nat.add_zero, wrap, if_neg (by omega)] at this
    · refine List.map_congr_left fun i hi ↦ ?_
      have hi : i < n := List.mem_range.1 hi
      show (l.rotate (wrap l.length (src + 1))).getD i d = (l.rotate src).getD (i + 1) d
      rw [← getD_wrap (wrap_lt (by omega)) (by omega), ← getD_wrap hs (by omega),
        wrap_eq_mod (by omega : src + 1 < 2 * l.length), wrap_eq_mod (by omega : src + (i + 1) < _),
        wrap_eq_mod (by have := Nat.mod_lt (src + 1) (by omega : 0 < l.length); omega),
        Nat.mod_add_mod]
      congr 2
      omega

end TcpServer.Ring
