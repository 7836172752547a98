import Mathlib.Algebra.Ring.Nat
import Mathlib.Data.List.Basic
import Mathlib.Tactic.Common

/-!
# Blocks of memory

A block is a function from offsets to cells, `ℕ → α`. It has no end: what bounds an access is the
capacity kept by whoever owns the block. Nothing depends on what a cell holds, so `α` is any type; a
development that must follow a byte around takes a type with as many values as it needs.

`read` and `write` are the two sides of a `memcpy`. They come with the rules by which the bytes of a
range are computed: a range splits into consecutive ranges (`read_add`), a write is read back
(`read_write_self`), and it is not seen by the ranges before and after it
(`read_write_of_le`, `read_write_of_ge`).

An access is not checked here, so the lemmas have no conditions on bounds; where a program would
leave a block, that is for the owner of the block to say. Ranges are lists, and everything about
consecutive ranges is a matter of appending.
-/

namespace TcpServer.Memory

variable {α : Type*}

/-- The `len` cells from `start` on. -/
def read (mem : ℕ → α) (start len : ℕ) : List α := (List.range len).map fun i ↦ mem (start + i)

/-- Copy `bytes` to the cells from `start` on. -/
def write (mem : ℕ → α) (start : ℕ) (bytes : List α) : ℕ → α :=
  fun i ↦ if start ≤ i then (bytes[i - start]?).getD (mem i) else mem i

@[simp] theorem length_read (mem : ℕ → α) (start len : ℕ) : (read mem start len).length = len := by
  simp [read]

@[simp] theorem read_zero (mem : ℕ → α) (start : ℕ) : read mem start 0 = [] := rfl

theorem getElem_read (mem : ℕ → α) (start len i : ℕ) (h : i < (read mem start len).length) :
    (read mem start len)[i] = mem (start + i) := by
  simp [read]

/-- A byte is read if it is at some offset of the range. -/
theorem mem_read_iff {mem : ℕ → α} {start len : ℕ} {x : α} :
    x ∈ read mem start len ↔ ∃ i < len, mem (start + i) = x := by
  simp [read]

/-- A range is the range of its first cells and the range of the others. -/
theorem read_add (mem : ℕ → α) (start m n : ℕ) :
    read mem start (m + n) = read mem start m ++ read mem (start + m) n := by
  simp [read, List.range_add, Nat.add_assoc]

theorem take_read (mem : ℕ → α) (start len n : ℕ) :
    (read mem start len).take n = read mem start (min n len) := by
  simp [read, ← List.map_take, List.take_range]

theorem drop_read (mem : ℕ → α) (start len n : ℕ) :
    (read mem start len).drop n = read mem (start + n) (len - n) := by
  rcases Nat.le_total n len with h | h
  · obtain ⟨k, rfl⟩ := Nat.exists_eq_add_of_le h
    have hlen : (read mem start n).length = n := length_read mem start n
    rw [read_add, Nat.add_sub_cancel_left, List.drop_append_of_le_length (by omega),
      List.drop_eq_nil_of_le (by omega), List.nil_append]
  · rw [Nat.sub_eq_zero_of_le h, read_zero]
    exact List.drop_eq_nil_of_le (by rw [length_read]; exact h)

/-! ### Reading after a write

A write is a function with a few values changed. What a range shows of it depends on whether the
range lies before, behind, around or across what was written.
-/

theorem write_of_lt (mem : ℕ → α) {start i : ℕ} (bytes : List α) (h : i < start) :
    write mem start bytes i = mem i := by
  rw [write, if_neg (by omega)]

theorem write_of_ge (mem : ℕ → α) {start i : ℕ} {bytes : List α} (h : start + bytes.length ≤ i) :
    write mem start bytes i = mem i := by
  rw [write, if_pos (by omega), List.getElem?_eq_none (by omega), Option.getD_none]

/-- The bytes written are at their offsets. -/
theorem write_add (mem : ℕ → α) (start : ℕ) {bytes : List α} {i : ℕ} (h : i < bytes.length) :
    write mem start bytes (start + i) = bytes[i] := by
  rw [write, if_pos (by omega), Nat.add_sub_cancel_left, List.getElem?_eq_getElem h,
    Option.getD_some]

@[simp] theorem write_nil (mem : ℕ → α) (start : ℕ) : write mem start [] = mem := by
  funext i
  rcases Nat.lt_or_ge i start with h | h
  · exact write_of_lt mem [] h
  · exact write_of_ge mem (by simpa using h)

/-- Two consecutive writes are one. -/
theorem write_append (mem : ℕ → α) (start : ℕ) (xs ys : List α) :
    write (write mem start xs) (start + xs.length) ys = write mem start (xs ++ ys) := by
  funext i
  rcases Nat.lt_or_ge i (start + xs.length) with hlt | hge
  · rw [write_of_lt _ _ hlt]
    unfold write
    split_ifs with h
    · rw [List.getElem?_append_left (by omega)]
    · rfl
  · obtain ⟨k, rfl⟩ := Nat.exists_eq_add_of_le hge
    rcases Nat.lt_or_ge k ys.length with hk | hk
    · have hlen : xs.length + k < (xs ++ ys).length := by
        rw [List.length_append]
        omega
      rw [write_add _ _ hk, Nat.add_assoc, write_add mem start hlen]
      simp
    · rw [write_of_ge _ (by omega), write_of_ge _ (by omega), write_of_ge _ (by
        rw [List.length_append]
        omega)]

/-- A range that ends before the write is unchanged by it. -/
theorem read_write_of_le (mem : ℕ → α) {start len at' : ℕ} (bytes : List α)
    (h : start + len ≤ at') : read (write mem at' bytes) start len = read mem start len := by
  refine List.map_congr_left fun i hi ↦ write_of_lt mem bytes ?_
  have := List.mem_range.1 hi
  omega

/-- A range that starts after the write is unchanged by it. -/
theorem read_write_of_ge (mem : ℕ → α) {start len at' : ℕ} {bytes : List α}
    (h : at' + bytes.length ≤ start) : read (write mem at' bytes) start len = read mem start len :=
  List.map_congr_left fun i _ ↦ write_of_ge mem (by omega)

/-- What was written is read back. -/
@[simp] theorem read_write_self (mem : ℕ → α) (start : ℕ) (bytes : List α) :
    read (write mem start bytes) start bytes.length = bytes := by
  refine List.ext_getElem (length_read _ _ _) fun i _ hi ↦ ?_
  rw [getElem_read, write_add mem start hi]

/-- `old` with `bytes` copied to it, from `offset` on. -/
def overwrite (offset : ℕ) (bytes old : List α) : List α :=
  old.take offset ++ bytes ++ old.drop (offset + bytes.length)

/-- A write within a range overwrites a part of it. -/
theorem read_write_within (mem : ℕ → α) (start : ℕ) {len offset : ℕ} {bytes : List α}
    (h : offset + bytes.length ≤ len) :
    read (write mem (start + offset) bytes) start len =
      overwrite offset bytes (read mem start len) := by
  obtain ⟨k, rfl⟩ := Nat.exists_eq_add_of_le h
  have hbefore : read (write mem (start + offset) bytes) start offset = read mem start offset :=
    read_write_of_le mem bytes (Nat.le_refl _)
  rw [overwrite, take_read, drop_read, Nat.min_eq_left (by omega), Nat.add_sub_cancel_left,
    read_add, read_add, hbefore, read_write_self, read_write_of_ge mem (by omega)]

@[simp] theorem length_overwrite {offset : ℕ} {bytes old : List α}
    (h : offset + bytes.length ≤ old.length) :
    (overwrite offset bytes old).length = old.length := by
  simp only [overwrite, List.length_append, List.length_take, List.length_drop]
  omega

/-- Overwriting behind a prefix. -/
theorem overwrite_append (pre : List α) (offset : ℕ) (bytes old : List α) :
    overwrite (pre.length + offset) bytes (pre ++ old) = pre ++ overwrite offset bytes old := by
  rw [overwrite, overwrite, List.take_append, List.take_of_length_le (by omega),
    Nat.add_sub_cancel_left, List.drop_append, List.drop_eq_nil_of_le (by omega), List.nil_append,
    Nat.add_assoc, Nat.add_sub_cancel_left]
  simp only [List.append_assoc]

/-- Overwriting before a suffix. -/
theorem overwrite_append_right {offset : ℕ} {bytes old : List α} (post : List α)
    (h : offset + bytes.length ≤ old.length) :
    overwrite offset bytes (old ++ post) = overwrite offset bytes old ++ post := by
  rw [overwrite, overwrite, List.take_append_of_le_length (by omega),
    List.drop_append_of_le_length h]
  simp only [List.append_assoc]

/-- One of several ranges is overwritten: that is to overwrite a part of them all, put together. -/
theorem flatten_set_overwrite {ranges : List (List α)} {j offset : ℕ} {bytes old : List α}
    (hj : ranges[j]? = some old) (h : offset + bytes.length ≤ old.length) :
    (ranges.set j (overwrite offset bytes old)).flatten =
      overwrite (((ranges.map List.length).take j).sum + offset) bytes ranges.flatten := by
  induction ranges generalizing j with
  | nil => simp at hj
  | cons r ranges ih =>
    cases j with
    | zero =>
      obtain rfl : r = old := by simpa using hj
      simp [overwrite_append_right _ h]
    | succ j =>
      have := ih (j := j) (by simpa using hj)
      rw [List.set_cons_succ, List.flatten_cons, List.flatten_cons, this, List.map_cons,
        List.take_succ_cons, List.sum_cons, Nat.add_assoc, overwrite_append]

/-- The bytes found after a write were there before or were written. -/
theorem mem_read_write {mem : ℕ → α} {start len at' : ℕ} {bytes : List α} {x : α}
    (h : x ∈ read (write mem at' bytes) start len) : x ∈ bytes ∨ x ∈ read mem start len := by
  obtain ⟨i, hi, rfl⟩ := mem_read_iff.1 h
  rcases Nat.lt_or_ge (start + i) at' with hlt | hge
  · rw [write_of_lt mem bytes hlt]
    exact .inr (mem_read_iff.2 ⟨i, hi, rfl⟩)
  · rcases Nat.lt_or_ge (start + i) (at' + bytes.length) with hlt | hge'
    · obtain ⟨k, hk⟩ := Nat.exists_eq_add_of_le hge
      rw [hk, write_add mem at' (by omega)]
      exact .inl (List.getElem_mem _)
    · rw [write_of_ge mem hge']
      exact .inr (mem_read_iff.2 ⟨i, hi, rfl⟩)

end TcpServer.Memory
