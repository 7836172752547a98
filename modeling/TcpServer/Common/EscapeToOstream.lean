import Mathlib.Algebra.Ring.Nat
import Mathlib.Algebra.Ring.Parity
import Mathlib.Data.List.DropRight
import Mathlib.Data.List.Induction

/-!
# `StringUtil::escapeToOstream`

Each byte is written as a word of its own, a control character, a quote or a backslash with a
backslash in front. A backslash in the text is an escaping one if the backslashes in front of it
make up an even number. The text up to the end of a word ends with an even number of backslashes
(`even_run_flatMap`), so that a quote, which is only ever the second byte of a word, stands behind
an escaping one.

The words are told apart by their first byte, which is all a decoder needs (`decode_escape_append`).

Nothing is written to the stream but the words of the characters, in order (`escapeToOstream_eq`),
so every statement about the text is one about `view.flatMap escape`. There are three: it has none
of the control characters that have a word of their own (`notMem_flatMap_of_mem_controls`), each
quote in it stands behind an odd number of backslashes (`odd_run_of_quote`), and the decoder gives
the bytes back, so that no two byte strings are written alike.
-/

namespace TcpServer.EscapeToOstream

/-- A string literal as the bytes of its characters. -/
def bytes (s : String) : List (BitVec 8) := s.toList.map fun c ↦ .ofNat 8 c.toNat

/-- The escape character. -/
def backslash : BitVec 8 := 0x5c

/-- What the `switch` writes for a character. -/
def escape (c : BitVec 8) : List (BitVec 8) :=
  match c with
  | 0x0d => bytes "\\r"
  | 0x0a => bytes "\\n"
  | 0x09 => bytes "\\t"
  | 0x0b => bytes "\\v"
  | 0x00 => bytes "\\0"
  | 0x22 => bytes "\\\""
  | 0x27 => bytes "\\'"
  | 0x5c => bytes "\\\\"
  | c => [c]

/-- The stream after the call. -/
def escapeToOstream (os view : List (BitVec 8)) : List (BitVec 8) :=
  view.foldl (fun os c ↦ os ++ escape c) os

/-! ### The text and its decoder

The escaped text is judged by two things of its own: how many backslashes stand in front of a quote,
and what a reader makes of it who knows only that a backslash changes the meaning of the next
character.
-/

/-- Carriage return, newline, tab, vertical tab and NUL. -/
def controls : List (BitVec 8) := [0x0d, 0x0a, 0x09, 0x0b, 0x00]

/-- The single and the double quote. -/
def quotes : List (BitVec 8) := [0x22, 0x27]

/-- The backslashes at the end of a text. -/
def run (text : List (BitVec 8)) : List (BitVec 8) := text.rtakeWhile (· = backslash)

/-- The character that is meant by a backslash and `e`. -/
def unescape (e : BitVec 8) : BitVec 8 :=
  match e with
  | 0x72 => 0x0d
  | 0x6e => 0x0a
  | 0x74 => 0x09
  | 0x76 => 0x0b
  | 0x30 => 0x00
  | e => e

/-- Reads a text from the front: a backslash and the character behind it mean one character, and any
other character means itself. -/
def decode : List (BitVec 8) → List (BitVec 8)
  | [] => []
  | [c] => [c]
  | c :: e :: text => if c = backslash then unescape e :: decode text else c :: decode (e :: text)

/-- A word is a plain character, or a backslash with what tells the character. -/
theorem escape_cases (c : BitVec 8) :
    (escape c = [c] ∧ c ∉ controls ∧ c ∉ quotes ∧ c ≠ backslash) ∨
      ∃ e, escape c = [backslash, e] ∧ e ∉ controls ∧ unescape e = c := by
  unfold escape
  split
  · exact Or.inr ⟨0x72, by decide⟩
  · exact Or.inr ⟨0x6e, by decide⟩
  · exact Or.inr ⟨0x74, by decide⟩
  · exact Or.inr ⟨0x76, by decide⟩
  · exact Or.inr ⟨0x30, by decide⟩
  · exact Or.inr ⟨0x22, by decide⟩
  · exact Or.inr ⟨0x27, by decide⟩
  · exact Or.inr ⟨0x5c, by decide⟩
  · refine Or.inl ⟨rfl, ?_⟩
    simp_all [controls, quotes, backslash]

variable {view text : List (BitVec 8)}

/-- The calls of `<<` are the words of the characters. -/
theorem escapeToOstream_eq (os view : List (BitVec 8)) :
    escapeToOstream os view = os ++ view.flatMap escape := by
  induction view generalizing os with
  | nil => rw [List.flatMap_nil, List.append_nil]; rfl
  | cons c view ih =>
    have hcons : escapeToOstream os (c :: view) = escapeToOstream (os ++ escape c) view := rfl
    rw [hcons, ih, List.flatMap_cons, List.append_assoc]

/-- A control character that has a word is not written itself. -/
theorem notMem_flatMap_of_mem_controls {b : BitVec 8} (hb : b ∈ controls) :
    b ∉ view.flatMap escape := by
  intro hmem
  obtain ⟨c, -, hc⟩ := List.mem_flatMap.1 hmem
  have hslash : backslash ∉ controls := by decide
  rcases escape_cases c with ⟨hword, hplain, -⟩ | ⟨e, hword, he, -⟩
  · rw [hword, List.mem_singleton] at hc
    exact hplain (hc ▸ hb)
  · rw [hword, List.mem_cons, List.mem_singleton] at hc
    rcases hc with rfl | rfl
    · exact hslash hb
    · exact he hb

/-! ### Quotes

A backslash may be a word of its own, doubled, or the beginning of another word. Which of the two it
is depends on the backslashes before it, so the proofs count the run of backslashes at the end of a
text, and go from the end of the text to its front.
-/

/-- A backslash makes the run longer by one. -/
theorem run_append_backslash (text : List (BitVec 8)) :
    (run (text ++ [backslash])).length = (run text).length + 1 := by
  have hrun : run (text ++ [backslash]) = run text ++ [backslash] :=
    List.rtakeWhile_concat_pos _ _ _ (decide_eq_true rfl)
  rw [hrun, List.length_append, List.length_singleton]

/-- Any other character ends the run. -/
theorem run_append_of_ne {c : BitVec 8} (hc : c ≠ backslash) (text : List (BitVec 8)) :
    run (text ++ [c]) = [] :=
  List.rtakeWhile_concat_neg _ _ _ (by simpa using hc)

/-- The induction takes the last word off. -/
theorem even_run_flatMap (view : List (BitVec 8)) : Even (run (view.flatMap escape)).length := by
  induction view using List.reverseRecOn with
  | nil => exact Even.zero
  | append_singleton view c ih =>
    rw [List.flatMap_append, List.flatMap_singleton]
    rcases escape_cases c with ⟨hword, -, -, hne⟩ | ⟨e, hword, -, -⟩
    · rw [hword, run_append_of_ne hne]
      exact Even.zero
    · rw [hword, List.append_cons]
      by_cases he : e = backslash
      · rw [he, run_append_backslash, run_append_backslash, Nat.add_assoc]
        exact ih.add even_two
      · rw [run_append_of_ne he]
        exact Even.zero

/-- A quote is the second byte of its word. -/
theorem eq_backslash_of_quote {c q : BitVec 8} {pre post : List (BitVec 8)} (hq : q ∈ quotes)
    (h : escape c = pre ++ q :: post) : pre = [backslash] := by
  have hslash : backslash ∉ quotes := by decide
  rcases escape_cases c with ⟨hword, -, hplain, -⟩ | ⟨e, hword, -, -⟩
  · rw [hword] at h
    match pre, h with
    | [], h => exact absurd ((List.cons.inj h).1 ▸ hq) hplain
    | x :: pre, h => exact absurd (List.cons.inj h).2.symm (by simp)
  · rw [hword] at h
    match pre, h with
    | [], h => exact absurd ((List.cons.inj h).1 ▸ hq) hslash
    | [x], h => rw [(List.cons.inj h).1]
    | x :: y :: pre, h => exact absurd (List.cons.inj (List.cons.inj h).2).2.symm (by simp)

/-- The induction takes words off the end until it meets the one with the quote. -/
theorem odd_run_of_quote {pre post : List (BitVec 8)} {q : BitVec 8} (hq : q ∈ quotes)
    (h : view.flatMap escape = pre ++ q :: post) : Odd (run pre).length := by
  induction view using List.reverseRecOn generalizing post with
  | nil => exact absurd h.symm (by simp)
  | append_singleton view c ih =>
    rw [List.flatMap_append, List.flatMap_singleton] at h
    rcases List.append_eq_append_iff.1 h with ⟨front, hpre, hword⟩ | ⟨back, hview, hword⟩
    · rw [hpre, eq_backslash_of_quote hq hword, run_append_backslash]
      exact (even_run_flatMap view).add_one
    · match back, hview, hword with
      | [], _, hword =>
        have hfirst : [] = [backslash] := eq_backslash_of_quote hq hword.symm
        exact absurd hfirst (List.cons_ne_nil _ _).symm
      | x :: back, hview, hword => exact ih ((List.cons.inj hword).1 ▸ hview)

/-! ### Decoding

A word is read completely before the next one begins, whatever comes behind it.
-/

/-- The decoder reads one word off the front. -/
theorem decode_escape_append (c : BitVec 8) (text : List (BitVec 8)) :
    decode (escape c ++ text) = c :: decode text := by
  rcases escape_cases c with ⟨hword, -, -, hne⟩ | ⟨e, hword, -, he⟩
  · rw [hword]
    match text with
    | [] => rfl
    | e :: text => exact if_neg hne
  · rw [hword]
    show (if backslash = backslash then unescape e :: decode text
      else backslash :: decode (e :: text)) = _
    rw [if_pos rfl, he]

/-- The decoder reads all the words. -/
theorem decode_flatMap_escape (view : List (BitVec 8)) : decode (view.flatMap escape) = view := by
  induction view with
  | nil => rfl
  | cons c view ih => rw [List.flatMap_cons, decode_escape_append, ih]

/-- For every byte string, what is written has no raw control character, each quote in it stands
behind an escaping backslash, and it is decoded to the byte string, so that no other one is written
alike. -/
theorem escapeToOstream_reversible (os view : List (BitVec 8)) :
    ∃ text, escapeToOstream os view = os ++ text ∧ (∀ b ∈ controls, b ∉ text) ∧
      (∀ pre post, ∀ q ∈ quotes, text = pre ++ q :: post → Odd (run pre).length) ∧
      decode text = view ∧ ∀ view', escapeToOstream os view' = os ++ text → view' = view := by
  refine ⟨view.flatMap escape, escapeToOstream_eq os view,
    fun b hb ↦ notMem_flatMap_of_mem_controls hb, fun pre post q hq h ↦ odd_run_of_quote hq h,
    decode_flatMap_escape view, fun view' h ↦ ?_⟩
  rw [escapeToOstream_eq] at h
  rw [← decode_flatMap_escape view', List.append_cancel_left h, decode_flatMap_escape]

end TcpServer.EscapeToOstream
