import Mathlib.Data.List.Basic
import Mathlib.Data.Set.Function
import Mathlib.Tactic.Common

/-!
# Codes of variable length

A list is written as the words of its elements one after the other, with nothing between them. Two
lists that are written alike run into each other at the first place where they differ: the word of
the one begins the word of the other there, and what is missing is made up by the words behind it
(`exists_overlap`). Where no word begins another one this cannot happen, so that the list can be
read back (`PrefixFreeOn.flatMap_injOn`).

That lists are written alike is a question about the code alone, so what separates two lists is
either a property of the pair (they do not overlap) or one of all elements that may occur (the code
is prefix-free on them).
-/

namespace TcpServer.PrefixCode

variable {α β : Type*}

/-- `l` and `l'` first differ in `a` and `b`. The word of `b` has `extra` over the word of `a`, and
the words that follow `a` begin with it. -/
structure OverlapAt (code : α → List β) (l l' common : List α) (a b : α) (rest rest' : List α)
    (extra : List β) : Prop where
  /-- The first list, up to the place where they differ. -/
  left_eq : l = common ++ a :: rest
  /-- The second list, up to that place. -/
  right_eq : l' = common ++ b :: rest'
  /-- The elements there are different. -/
  ne : a ≠ b
  /-- The word of the second begins with that of the first. -/
  word_eq : code b = code a ++ extra
  /-- What is missing of it is the beginning of what follows the first. -/
  rest_eq : rest.flatMap code = extra ++ rest'.flatMap code

/-- The words of `l'` run over those of `l`. -/
def Overlap (code : α → List β) (l l' : List α) : Prop :=
  ∃ common a b rest rest' extra, OverlapAt code l l' common a b rest rest' extra

/-- On `s` no word is empty and none begins the word of another element. -/
structure PrefixFreeOn (code : α → List β) (s : Set α) : Prop where
  /-- No word is empty. -/
  ne_nil : ∀ a ∈ s, code a ≠ []
  /-- No word begins another one. -/
  eq_of_prefix : ∀ a ∈ s, ∀ b ∈ s, code a <+: code b → a = b

variable {code : α → List β} {s : Set α} {l l' : List α} {a b : α}

/-- Lists that overlap are written alike. -/
theorem Overlap.flatMap_eq (h : Overlap code l l') : l.flatMap code = l'.flatMap code := by
  obtain ⟨common, a, b, rest, rest', extra, h⟩ := h
  rw [h.left_eq, h.right_eq, List.flatMap_append, List.flatMap_append, List.flatMap_cons,
    List.flatMap_cons, h.word_eq, h.rest_eq, List.append_assoc]

theorem Overlap.ne (h : Overlap code l l') : l ≠ l' := by
  obtain ⟨common, a, b, rest, rest', extra, h⟩ := h
  rw [h.left_eq, h.right_eq]
  intro heq
  exact h.ne (List.cons.inj (List.append_cancel_left heq)).1

theorem Overlap.cons (c : α) (h : Overlap code l l') : Overlap code (c :: l) (c :: l') := by
  obtain ⟨common, a, b, rest, rest', extra, h⟩ := h
  exact ⟨c :: common, a, b, rest, rest', extra, by rw [h.left_eq]; rfl, by rw [h.right_eq]; rfl,
    h.ne, h.word_eq, h.rest_eq⟩

/-- Different lists that are written alike: one runs over the other. The induction walks down to the
first place where they differ. -/
theorem exists_overlap (hnil : ∀ a ∈ l ++ l', code a ≠ []) (h : l.flatMap code = l'.flatMap code)
    (hne : l ≠ l') : Overlap code l l' ∨ Overlap code l' l := by
  induction l generalizing l' with
  | nil =>
    match l' with
    | [] => exact absurd rfl hne
    | b :: l' =>
      rw [List.flatMap_nil, List.flatMap_cons] at h
      exact absurd (List.append_eq_nil_iff.1 h.symm).1 (hnil b (by simp))
  | cons a l ih =>
    match l' with
    | [] =>
      rw [List.flatMap_nil, List.flatMap_cons] at h
      exact absurd (List.append_eq_nil_iff.1 h).1 (hnil a (by simp))
    | b :: l' =>
      rw [List.flatMap_cons, List.flatMap_cons] at h
      by_cases hab : a = b
      · subst hab
        have hrest : l ≠ l' := fun heq ↦ hne (by rw [heq])
        have hnil' : ∀ c ∈ l ++ l', code c ≠ [] := by
          intro c hc
          rcases List.mem_append.1 hc with hc | hc
          · exact hnil c (List.mem_append_left _ (List.mem_cons_of_mem _ hc))
          · exact hnil c (List.mem_append_right _ (List.mem_cons_of_mem _ hc))
        rcases ih hnil' (List.append_cancel_left h) hrest with hover | hover
        · exact Or.inl (hover.cons a)
        · exact Or.inr (hover.cons a)
      · -- the shorter one of the two words begins the other
        rcases List.append_eq_append_iff.1 h with ⟨extra, hword, hrest⟩ | ⟨extra, hword, hrest⟩
        · exact Or.inl ⟨[], a, b, l, l', extra, rfl, rfl, hab, hword, hrest⟩
        · exact Or.inr ⟨[], b, a, l', l, extra, rfl, rfl, fun hba ↦ hab hba.symm, hword, hrest⟩

/-- With such a code no lists overlap. -/
theorem PrefixFreeOn.not_overlap (h : PrefixFreeOn code s) (hl : ∀ a ∈ l, a ∈ s)
    (hl' : ∀ a ∈ l', a ∈ s) : ¬Overlap code l l' := by
  rintro ⟨common, a, b, rest, rest', extra, hover⟩
  have ha : a ∈ s := hl a (by rw [hover.left_eq]; simp)
  have hb : b ∈ s := hl' b (by rw [hover.right_eq]; simp)
  exact hover.ne (h.eq_of_prefix a ha b hb ⟨extra, hover.word_eq.symm⟩)

/-- Where no word begins another one, lists that are written alike are equal. -/
theorem PrefixFreeOn.flatMap_injOn (h : PrefixFreeOn code s) :
    Set.InjOn (List.flatMap code) {l | ∀ a ∈ l, a ∈ s} := by
  intro l hl l' hl' heq
  by_contra hne
  have hnil : ∀ a ∈ l ++ l', code a ≠ [] := by
    intro a ha
    rcases List.mem_append.1 ha with ha | ha
    · exact h.ne_nil a (hl a ha)
    · exact h.ne_nil a (hl' a ha)
  rcases exists_overlap hnil heq hne with hover | hover
  · exact h.not_overlap hl hl' hover
  · exact h.not_overlap hl' hl hover

end TcpServer.PrefixCode
