import Mathlib.Data.List.Infix
import Mathlib.Tactic.Common

/-!
# Longest prefixes

A finite map from lists is asked for the longest of its keys that is a prefix of a list. `Longest`
says what the answer is, and `longestPrefix` finds it by looking at the prefixes one by one.

The recursion goes down the list, and at each step it asks for a longer prefix first; the answer of
the specification is unique, so the two agree. The map is a function, since only its values at the
prefixes of one list matter.
-/

namespace TcpServer

variable {κ ν : Type*}

/-- `r` is the value of the longest key that is a prefix of `q`, and there is none without such a
key. -/
def Longest (m : List κ → Option ν) (q : List κ) (r : Option ν) : Prop :=
  (∃ p, p <+: q ∧ m p = r ∧ r ≠ none ∧ ∀ p', p' <+: q → m p' ≠ none → p'.length ≤ p.length) ∨
    (∀ p, p <+: q → m p = none) ∧ r = none

/-- The value at the longest prefix that is a key, by recursion on the list. -/
def longestPrefix (m : List κ → Option ν) : List κ → Option ν
  | [] => m []
  | c :: q => (longestPrefix (fun p ↦ m (c :: p)) q).or (m [])

variable {m : List κ → Option ν} {q : List κ} {r r' : Option ν}

/-- There is one answer. -/
theorem Longest.unique (h : Longest m q r) (h' : Longest m q r') : r = r' := by
  rcases h with ⟨p, hp, rfl, hne, hmax⟩ | ⟨hnone, rfl⟩
  · rcases h' with ⟨p', hp', rfl, hne', hmax'⟩ | ⟨hnone', rfl⟩
    · have hlength : p.length = p'.length := Nat.le_antisymm (hmax' p hp hne) (hmax p' hp' hne')
      have heq : p = p' := (List.prefix_of_prefix_length_le hp hp' hlength.le).eq_of_length hlength
      rw [heq]
    · exact absurd (hnone' p hp) hne
  · rcases h' with ⟨p', hp', rfl, hne', -⟩ | ⟨-, rfl⟩
    · exact absurd (hnone p' hp') hne'
    · rfl

/-- What the recursion finds is the answer. -/
theorem longest_longestPrefix (m : List κ → Option ν) (q : List κ) :
    Longest m q (longestPrefix m q) := by
  induction q generalizing m with
  | nil =>
    rw [longestPrefix]
    rcases h : m [] with _ | v
    · exact .inr ⟨fun p hp ↦ List.prefix_nil.1 hp ▸ h, rfl⟩
    · exact .inl ⟨[], List.nil_prefix, h, Option.some_ne_none v, fun p' hp' _ ↦
        (List.prefix_nil.1 hp' ▸ rfl : p'.length = 0).le⟩
  | cons c q ih =>
    rw [longestPrefix]
    rcases ih fun p ↦ m (c :: p) with ⟨p, hp, hm, hne, hmax⟩ | ⟨hnone, heq⟩
    · obtain ⟨v, hv⟩ := Option.ne_none_iff_exists'.1 hne
      rw [hv, Option.some_or]
      refine .inl ⟨c :: p, (List.prefix_cons_inj c).2 hp, hm.trans hv, Option.some_ne_none v,
        fun p' hp' hp'ne ↦ ?_⟩
      match p' with
      | [] => exact Nat.zero_le _
      | c' :: p' =>
        obtain ⟨rfl, htail⟩ := List.cons_prefix_cons.1 hp'
        exact Nat.succ_le_succ (hmax p' htail hp'ne)
    · have hcons : ∀ p, p ≠ [] → p <+: c :: q → m p = none := by
        intro p hp hprefix
        match p with
        | [] => exact absurd rfl hp
        | c' :: p =>
          obtain ⟨rfl, htail⟩ := List.cons_prefix_cons.1 hprefix
          exact hnone p htail
      rw [heq, Option.none_or]
      rcases h : m [] with _ | v
      · refine .inr ⟨fun p hp ↦ ?_, rfl⟩
        rcases eq_or_ne p [] with rfl | hpne
        · exact h
        · exact hcons p hpne hp
      · refine .inl ⟨[], List.nil_prefix, h, Option.some_ne_none v, fun p' hp' hne' ↦ ?_⟩
        by_contra hlt
        have hp'ne : p' ≠ [] := List.ne_nil_of_length_pos (Nat.pos_of_ne_zero fun h0 ↦ hlt h0.le)
        exact hne' (hcons p' hp'ne hp')

theorem longest_iff : Longest m q r ↔ r = longestPrefix m q :=
  ⟨fun h ↦ h.unique (longest_longestPrefix m q), fun h ↦ h ▸ longest_longestPrefix m q⟩

/-- A list that is a key itself is the longest. -/
theorem longestPrefix_of_ne_none (h : m q ≠ none) : longestPrefix m q = m q :=
  (longest_iff.1 (.inl ⟨q, List.prefix_rfl, rfl, h, fun _ hp _ ↦ hp.length_le⟩)).symm

/-- Nothing is found if no prefix is a key. -/
theorem longestPrefix_eq_none_iff : longestPrefix m q = none ↔ ∀ p, p <+: q → m p = none := by
  constructor
  · intro h
    rcases longest_longestPrefix m q with ⟨_, _, _, hne, _⟩ | ⟨hnone, -⟩
    · exact absurd h hne
    · exact hnone
  · exact fun h ↦ (longest_iff.1 (.inr ⟨h, rfl⟩)).symm

end TcpServer
