import Mathlib.Data.List.Basic
import Mathlib.Tactic.Common

/-!
# Ordered sets

A set ordered by a comparator, as a list in that order. Iterators are indices, and the end is the
length. Two elements are equivalent if neither is less, and a set has at most one of them: `insert`
puts nothing into a set with an equivalent element. What a search finds is told by how the elements
compare where the set is cut in two (`lowerBound_append`, `upperBound_append`, `insert_append`).

Nothing is asked of the comparator. The lemmas have as hypotheses how the element searched for
compares with each part of the list, so that they hold for a comparator that is an order only on the
elements which the set can have at the same time.
-/

namespace TcpServer.OrderedSet

variable {β : Type*} (lt : β → β → Bool)

/-- The first element that is not less than `x`. -/
def lowerBound (s : List β) (x : β) : ℕ := s.findIdx fun e ↦ !lt e x

/-- The first element that `x` is less than. -/
def upperBound (s : List β) (x : β) : ℕ := s.findIdx (lt x)

/-- Puts an element behind those that are not greater, unless there is an equivalent one. -/
def insert (s : List β) (x : β) : List β :=
  if s.any fun e ↦ !lt e x && !lt x e then s
  else s.take (upperBound lt s x) ++ x :: s.drop (upperBound lt s x)

/-- The elements from `first` on and before `last` are taken out. -/
def erase (s : List β) (first last : ℕ) : List β := s.take first ++ s.drop last

variable {lt : β → β → Bool} {A B C : List β} {x : β}

theorem findIdx_append_of {p : β → Bool} (hA : ∀ e ∈ A, p e = false) (hB : ∀ e ∈ B, p e = true) :
    (A ++ B).findIdx p = A.length := by
  have hlength : A.findIdx p = A.length := List.findIdx_eq_length_of_false hA
  rw [List.findIdx_append, hlength, if_neg (Nat.lt_irrefl _)]
  match B with
  | [] => rw [List.findIdx_nil, Nat.zero_add]
  | e :: B => rw [List.findIdx_cons, hB e List.mem_cons_self, cond_true, Nat.zero_add]

/-- The lower bound is where the elements that are less end. -/
theorem lowerBound_append (hA : ∀ e ∈ A, lt e x = true) (hB : ∀ e ∈ B, lt e x = false) :
    lowerBound lt (A ++ B) x = A.length :=
  findIdx_append_of (fun e he ↦ by rw [hA e he]; rfl) fun e he ↦ by rw [hB e he]; rfl

/-- The upper bound is where those that are greater begin. -/
theorem upperBound_append (hA : ∀ e ∈ A, lt x e = false) (hB : ∀ e ∈ B, lt x e = true) :
    upperBound lt (A ++ B) x = A.length :=
  findIdx_append_of hA hB

/-- What is less than no element before its place, and greater than those, is put in there. -/
theorem insert_append (hA : ∀ e ∈ A, lt e x = true ∧ lt x e = false) (hB : ∀ e ∈ B, lt x e = true) :
    insert lt (A ++ B) x = A ++ x :: B := by
  have hnone : ¬ ((A ++ B).any fun e ↦ !lt e x && !lt x e) = true := by
    rw [List.any_eq_true]
    rintro ⟨e, he, hequiv⟩
    rcases List.mem_append.1 he with he | he
    · rw [(hA e he).1] at hequiv
      exact Bool.false_ne_true hequiv
    · rw [hB e he, Bool.not_true, Bool.and_false] at hequiv
      exact Bool.false_ne_true hequiv
  rw [insert, if_neg hnone, upperBound_append (fun e he ↦ (hA e he).2) hB, List.take_left,
    List.drop_left]

/-- Erasing a part leaves what is before and behind it. -/
theorem erase_append : erase (A ++ (B ++ C)) A.length (A.length + B.length) = A ++ C := by
  rw [erase, List.take_left, ← List.drop_drop, List.drop_left, List.drop_left]

end TcpServer.OrderedSet
