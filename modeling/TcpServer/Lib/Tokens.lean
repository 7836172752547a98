import Mathlib.Data.List.DropRight
import Mathlib.Tactic.Common

/-!
# Tokens

A list is split at its delimiters, the pieces that are only space are left out, and the others are
trimmed. `tokens` does not depend on how much space there is around a token and how many delimiters
follow each other, so joining tokens gives a list with the same tokens (`tokens_intercalate`).

Delimiters and space are any two sets of elements, which may have some in common. A list is taken
apart at its first delimiter, and the recursion over the list is in the library's `splitOnP`.
-/

namespace TcpServer.Tokens

variable {α : Type*}

/-- Space is taken off both ends, first off the right one. -/
def trim (isSpace : α → Bool) (l : List α) : List α := (l.rdropWhile isSpace).dropWhile isSpace

/-- The pieces between delimiters that are not only space, trimmed. -/
def tokens (isDelim isSpace : α → Bool) (l : List α) : List (List α) :=
  ((l.splitOnP isDelim).filter fun piece ↦ !piece.all isSpace).map (trim isSpace)

/-- A list that can be a token: with no delimiter in it, and no space at the ends. -/
structure Clean (isDelim isSpace : α → Bool) (v : List α) : Prop where
  /-- It is not empty. -/
  ne_nil : v ≠ []
  /-- It has no delimiter. -/
  not_isDelim : ∀ c ∈ v, isDelim c = false
  /-- It has no space at its ends. -/
  trim_eq : trim isSpace v = v

variable {isDelim isSpace : α → Bool} {l l' w v : List α} {c : α}

/-! ### Trimming

Trimming is done once on either side, so the order of the two sides could matter; it does not, since
both take away as much space as there is.
-/

theorem trim_eq_nil_iff : trim isSpace l = [] ↔ ∀ c ∈ l, isSpace c = true := by
  rw [trim, List.dropWhile_eq_nil_iff]
  constructor
  · intro h
    have hnil : l.rdropWhile isSpace = [] := by
      by_contra hne
      exact List.rdropWhile_last_not isSpace l hne (h _ (List.getLast_mem hne))
    exact List.rdropWhile_eq_nil_iff.1 hnil
  · exact fun h c hc ↦ h c ((List.rdropWhile_prefix isSpace _).subset hc)

theorem trim_append (h : ∀ c ∈ w, isSpace c = true) : trim isSpace (l ++ w) = trim isSpace l := by
  have hw : w.reverse.dropWhile isSpace = [] :=
    List.dropWhile_eq_nil_iff.2 fun c hc ↦ h c (List.mem_reverse.1 hc)
  rw [trim, trim, List.rdropWhile, List.rdropWhile, List.reverse_append, List.dropWhile_append, hw]
  rfl

theorem trim_cons (hc : isSpace c = true) : trim isSpace (c :: l) = trim isSpace l := by
  by_cases hl : ∀ x ∈ l, isSpace x = true
  · rw [trim_eq_nil_iff.2 hl, trim_eq_nil_iff, List.forall_mem_cons]
    exact ⟨hc, hl⟩
  · have hne : (l.reverse.dropWhile isSpace).isEmpty = false := by
      rw [List.isEmpty_eq_false_iff, ne_eq, List.dropWhile_eq_nil_iff]
      exact fun h ↦ hl fun x hx ↦ h x (List.mem_reverse.2 hx)
    have hcons : (c :: l).rdropWhile isSpace = c :: l.rdropWhile isSpace := by
      rw [List.rdropWhile, List.reverse_cons, List.dropWhile_append, hne, if_neg Bool.false_ne_true,
        List.reverse_append]
      rfl
    rw [trim, hcons, List.dropWhile_cons, if_pos hc]
    rfl

/-- What is trimmed has nothing more to trim. -/
theorem trim_trim : trim isSpace (trim isSpace l) = trim isSpace l := by
  have hright : (trim isSpace l).rdropWhile isSpace = trim isSpace l := by
    rw [List.rdropWhile_eq_self_iff]
    intro hne
    have hsuffix : trim isSpace l <:+ l.rdropWhile isSpace := List.dropWhile_suffix isSpace
    have hne' : l.rdropWhile isSpace ≠ [] := fun h ↦ hne (List.suffix_nil.1 (h ▸ hsuffix))
    rw [hsuffix.getLast hne]
    exact List.rdropWhile_last_not isSpace l hne'
  have hleft : (trim isSpace l).dropWhile isSpace = trim isSpace l :=
    List.dropWhile_idempotent isSpace _
  rw [trim, hright, hleft]

/-! ### Splitting

A delimiter separates the tokens before it from those behind it.
-/

/-- The tokens around a delimiter. -/
theorem tokens_append_cons (hc : isDelim c = true) :
    tokens isDelim isSpace (l ++ c :: l') = tokens isDelim isSpace l ++
      tokens isDelim isSpace l' := by
  rw [tokens, List.splitOnP_append_cons l l' hc, List.filter_append, List.map_append]
  rfl

/-- Without a delimiter there is one token at most. -/
theorem tokens_of_not_isDelim (h : ∀ c ∈ l, isDelim c = false) :
    tokens isDelim isSpace l = if l.all isSpace then [] else [trim isSpace l] := by
  rw [tokens, List.splitOnP_eq_singleton h]
  split_ifs with hspace
  · rw [List.filter_cons, hspace]
    rfl
  · rw [List.filter_cons, Bool.eq_false_iff.2 hspace]
    rfl

/-- Delimiters and space before the first token do not matter. -/
theorem tokens_cons (hc : isDelim c = true ∨ isSpace c = true) :
    tokens isDelim isSpace (c :: l) = tokens isDelim isSpace l := by
  by_cases hdelim : isDelim c = true
  · exact tokens_append_cons (l := []) hdelim
  · have hspace : isSpace c = true := hc.resolve_left hdelim
    obtain ⟨piece, pieces, hsplit⟩ := List.exists_cons_of_ne_nil (List.splitOnP_ne_nil isDelim l)
    rw [tokens, tokens, List.splitOnP_cons_eq_if_modifyHead, if_neg hdelim, hsplit,
      List.modifyHead_cons, List.filter_cons, List.filter_cons, List.all_cons, hspace,
      Bool.true_and]
    split_ifs
    · rw [List.map_cons, List.map_cons, trim_cons hspace]
    · rfl

theorem tokens_append_left (h : ∀ c ∈ w, isDelim c = true ∨ isSpace c = true) :
    tokens isDelim isSpace (w ++ l) = tokens isDelim isSpace l := by
  induction w with
  | nil => rfl
  | cons c w ih =>
    rw [List.forall_mem_cons] at h
    rw [List.cons_append, tokens_cons h.1, ih h.2]

/-- No piece has a delimiter in it. -/
theorem not_isDelim_of_mem_splitOnP (h : v ∈ l.splitOnP isDelim) : ∀ c ∈ v, isDelim c = false := by
  induction l generalizing v with
  | nil =>
    rw [List.splitOnP_nil, List.mem_singleton] at h
    rw [h]
    exact List.forall_mem_nil _
  | cons x l ih =>
    rw [List.splitOnP_cons_eq_if_modifyHead] at h
    split_ifs at h with hx
    · rcases List.mem_cons.1 h with rfl | h
      · exact List.forall_mem_nil _
      · exact ih h
    · obtain ⟨piece, pieces, hsplit⟩ := List.exists_cons_of_ne_nil (List.splitOnP_ne_nil isDelim l)
      rw [hsplit] at h ih
      rcases List.mem_cons.1 h with rfl | h
      · exact List.forall_mem_cons.2 ⟨Bool.eq_false_iff.2 hx, ih List.mem_cons_self⟩
      · exact ih (List.mem_cons_of_mem _ h)

/-- A token is of the form that tokens have. -/
theorem clean_of_mem_tokens (h : v ∈ tokens isDelim isSpace l) : Clean isDelim isSpace v := by
  obtain ⟨piece, hpiece, rfl⟩ := List.mem_map.1 h
  obtain ⟨hsplit, hspace⟩ := List.mem_filter.1 hpiece
  refine ⟨fun hnil ↦ ?_, fun c hc ↦ ?_, trim_trim⟩
  · rw [List.all_eq_true.2 (trim_eq_nil_iff.1 hnil)] at hspace
    exact Bool.false_ne_true hspace
  · have hc : c ∈ piece := (List.rdropWhile_prefix isSpace _).subset
      ((List.dropWhile_suffix isSpace).subset hc)
    exact not_isDelim_of_mem_splitOnP hsplit c hc

/-! ### Joining

The joiner has to have a delimiter in it and nothing but delimiters and space.
-/

/-- **Joined tokens are the tokens again**, if the joiner keeps them apart and adds nothing to
them. -/
theorem tokens_intercalate {joiner : List α} {vs : List (List α)}
    (hsep : ∃ c ∈ joiner, isDelim c = true) (hjoiner : ∀ c ∈ joiner, isDelim c = true ∨
      isSpace c = true)
    (hvs : ∀ v ∈ vs, Clean isDelim isSpace v) :
    tokens isDelim isSpace (joiner.intercalate vs) = vs := by
  have hclean : ∀ v, Clean isDelim isSpace v → ∀ w, (∀ c ∈ w, isDelim c = false) →
      (∀ c ∈ w, isSpace c = true) → tokens isDelim isSpace (v ++ w) = [v] := by
    intro v hv w hdelim hspace
    have hnot : ¬ (v ++ w).all isSpace = true := fun hall ↦ by
      rw [List.all_append, Bool.and_eq_true, List.all_eq_true] at hall
      exact hv.ne_nil (hv.trim_eq.symm.trans (trim_eq_nil_iff.2 hall.1))
    rw [tokens_of_not_isDelim (List.forall_mem_append.2 ⟨hv.not_isDelim, hdelim⟩), if_neg hnot,
      trim_append hspace, hv.trim_eq]
  induction vs with
  | nil => rfl
  | cons v vs ih =>
    rw [List.forall_mem_cons] at hvs
    match vs with
    | [] =>
      have hv := hclean v hvs.1 [] (List.forall_mem_nil _) (List.forall_mem_nil _)
      rw [List.append_nil] at hv
      rw [List.intercalate_singleton, hv]
    | v' :: vs =>
      -- The joiner is split at its first delimiter.
      obtain ⟨c, hfind⟩ : ∃ c, joiner.find? isDelim = some c :=
        Option.isSome_iff_exists.1 (List.find?_isSome.2 hsep)
      obtain ⟨hc, w, rest, hsplit, hw⟩ := List.find?_eq_some_iff_append.1 hfind
      have hw' : ∀ x ∈ w, isDelim x = false := fun x hx ↦ by simpa using hw x hx
      have hspace : ∀ x ∈ w, isSpace x = true := fun x hx ↦
        (hjoiner x (hsplit ▸ List.mem_append_left _ hx)).resolve_left
          (Bool.eq_false_iff.1 (hw' x hx))
      have hrest : ∀ x ∈ rest, isDelim x = true ∨ isSpace x = true := fun x hx ↦
        hjoiner x (hsplit ▸ List.mem_append_right _ (List.mem_cons_of_mem c hx))
      have heq : joiner.intercalate (v :: v' :: vs) =
          (v ++ w) ++ c :: (rest ++ joiner.intercalate (v' :: vs)) := by
        rw [List.intercalate_cons_cons]
        conv_lhs => rw [hsplit]
        simp only [List.append_assoc, List.cons_append]
        rw [← hsplit]
      rw [heq, tokens_append_cons hc, tokens_append_left hrest, ih hvs.2,
        hclean v hvs.1 w hw' hspace]
      rfl

end TcpServer.Tokens
