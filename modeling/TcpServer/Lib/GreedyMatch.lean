import Mathlib.Data.Multiset.ZeroCons

/-!
# Matching two lists greedily

`takesAll r l m` gives every element of `l`, in order, the first element of `m` that it is related
to and that is still there. What it finds is a matching. That it finds one whenever there is one
needs a reason: the first element that fits may be the only one that fits another. It is not when
`r` is difunctional, for then the two can change places (`rel_cons_iff`).

A matching of two lists is a relation of their multisets (`Multiset.Rel`), so that neither order
matters. An equivalence is difunctional between any two multisets, and so is every relation that
says that two functions agree.
-/

namespace TcpServer.Lib.GreedyMatch

open Multiset

variable {α β : Type*}

/-- Each element takes the first one that it is related to off the other list. -/
def takesAll (r : α → β → Bool) : List α → List β → Bool
  | [], _ => true
  | a :: l, m => if m.any (r a) then takesAll r l (m.eraseP (r a)) else false

/-- Elements that share one relative share all of them. -/
def Difunctional (r : α → β → Prop) (s : Multiset α) (t : Multiset β) : Prop :=
  ∀ a ∈ s, ∀ a' ∈ s, ∀ b ∈ t, ∀ b' ∈ t, r a b → r a b' → r a' b → r a' b'

/-! ### Multisets

The lemma about changing places is about multisets with one element each set apart.
-/

variable {r : α → β → Prop} {a : α} {b : β} {s : Multiset α} {t : Multiset β}

/-- What is left of both is difunctional as well. -/
theorem Difunctional.of_cons (h : Difunctional r (a ::ₘ s) (b ::ₘ t)) : Difunctional r s t :=
  fun c hc c' hc' d hd d' hd' ↦ h c (mem_cons_of_mem hc) c' (mem_cons_of_mem hc') d
    (mem_cons_of_mem hd) d' (mem_cons_of_mem hd')

/-- Two elements that are related may be matched with each other first. -/
theorem rel_cons_iff (h : Difunctional r (a ::ₘ s) (b ::ₘ t)) (hab : r a b) :
    Rel r (a ::ₘ s) (b ::ₘ t) ↔ Rel r s t := by
  refine ⟨fun hrel ↦ ?_, .cons hab⟩
  obtain ⟨b', t', hab', hst', htt'⟩ := rel_cons_left.1 hrel
  rcases cons_eq_cons.1 htt' with ⟨-, rfl⟩ | ⟨-, u, rfl, rfl⟩
  · exact hst'
  · -- `a` has `b'`, and some `a'` has `b`: they change places
    obtain ⟨a', s', hab'', hs'u, rfl⟩ := rel_cons_right.1 hst'
    have ha' : a' ∈ a ::ₘ a' ::ₘ s' := mem_cons_of_mem (mem_cons_self a' s')
    have hb' : b' ∈ b ::ₘ b' ::ₘ u := mem_cons_of_mem (mem_cons_self b' u)
    exact .cons (h a (mem_cons_self ..) a' ha' b (mem_cons_self ..) b' hb' hab hab' hab'') hs'u

/-! ### Lists

A list is searched, and the element that is found is erased.
-/

/-- What is found and erased. -/
theorem exists_cons_eraseP {p : β → Bool} {m : List β} (h : m.any p = true) :
    ∃ b, p b = true ∧ (m : Multiset β) = b ::ₘ (m.eraseP p : Multiset β) := by
  obtain ⟨c, hc, hpc⟩ := List.any_eq_true.1 h
  obtain ⟨b, before, after, -, hb, rfl, herase⟩ := List.exists_of_eraseP hc hpc
  refine ⟨b, hb, ?_⟩
  rw [herase, cons_coe, coe_eq_coe]
  exact List.perm_middle

/-- **Greedy matching decides** whether there is a matching. -/
theorem takesAll_iff {r : α → β → Bool} {l : List α} {m : List β} (hlength : l.length = m.length)
    (h : Difunctional (fun a b ↦ r a b = true) (l : Multiset α) (m : Multiset β)) :
    takesAll r l m = true ↔ Rel (fun a b ↦ r a b = true) (l : Multiset α) (m : Multiset β) := by
  induction l generalizing m with
  | nil =>
    rw [List.eq_nil_of_length_eq_zero hlength.symm]
    exact ⟨fun _ ↦ .zero, fun _ ↦ rfl⟩
  | cons a l ih =>
    rw [takesAll]
    split_ifs with hany
    · obtain ⟨b, hab, hm⟩ := exists_cons_eraseP hany
      have hlength' : l.length = (m.eraseP (r a)).length := by
        have hcard := congrArg card hm
        rw [card_cons, coe_card, coe_card, ← hlength, List.length_cons] at hcard
        exact Nat.succ_injective hcard
      rw [hm, ← cons_coe] at h
      rw [hm, ← cons_coe, rel_cons_iff h hab]
      exact ih hlength' h.of_cons
    · refine ⟨False.elim, fun hrel ↦ absurd ?_ hany⟩
      obtain ⟨b, hb, hab⟩ := exists_mem_of_rel_of_mem hrel (mem_coe.2 List.mem_cons_self)
      exact List.any_eq_true.2 ⟨b, mem_coe.1 hb, hab⟩

end TcpServer.Lib.GreedyMatch
