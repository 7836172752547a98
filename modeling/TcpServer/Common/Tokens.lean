import TcpServer.Lib.Tokens

/-!
# Tokens found and removed

`StringUtil::removeTokens` and `StringUtil::caseFindToken` split their source in different ways. The
one leaves out what is only whitespace and trims the rest; the other keeps the empty pieces, because
`trim_whitespace` is handed on as `keep_empty_string`, and trims when it compares. For a key that is
not empty both see the same tokens (`caseFindToken_iff`).

The tokens to remove are in a hash set that ignores case. `absl::flat_hash_set` is a parameter,
which finds what is equal where equal keys have equal hashes (`CorrectHashSet`).

A byte is a `char` here, and `ascii_tolower` changes the letters only; for the hash a character from
128 on is negative, which does not matter, as both strings are lowered first. That equal keys have
equal hashes is what the hash set asks of its caller, so it is proved here
(`djb2CaseInsensitiveHash_eq`) and not assumed.
-/

namespace TcpServer.Common

open Tokens

/-- A `string_view`. -/
abbrev Bytes := List UInt8

/-- `WhitespaceChars`, which are the whitespace of `absl::SkipWhitespace` too. -/
def whitespaceChars : Bytes := [32, 9, 12, 11, 10, 13]

/-- `absl::ascii_tolower`. -/
def asciiToLower (c : UInt8) : UInt8 := if 65 ≤ c ∧ c ≤ 90 then c + 32 else c

/-- `absl::EqualsIgnoreCase`. -/
def equalsIgnoreCase (s t : Bytes) : Bool := s.map asciiToLower = t.map asciiToLower

/-- `HashUtil::djb2CaseInsensitiveHash`. What `ascii_tolower` returns is a `char`, which has a
sign. -/
def djb2CaseInsensitiveHash (input : Bytes) : UInt64 :=
  input.foldl (fun (hash : UInt64) c ↦ (hash <<< 5 + hash) +
    (asciiToLower c).toInt8.toInt64.toUInt64) 5381

/-- `StringUtil::splitToken`, for delimiters that are not empty. -/
def splitToken (source delimiters : Bytes) (keepEmptyString trimWhitespace : Bool) : List Bytes :=
  let pieces := source.splitOnP delimiters.contains
  let result :=
    if keepEmptyString then pieces
    else if trimWhitespace then pieces.filter fun piece ↦ !piece.all whitespaceChars.contains
    else pieces.filter fun piece ↦ !piece.isEmpty
  if trimWhitespace then result.map (trim whitespaceChars.contains) else result

/-- `StringUtil::caseFindToken`. -/
def caseFindToken (source delimiters keyToken : Bytes) (trimWhitespace : Bool) : Bool :=
  let tokens := splitToken source delimiters trimWhitespace false
  if trimWhitespace then
    tokens.any fun token ↦ equalsIgnoreCase keyToken (trim whitespaceChars.contains token)
  else tokens.any (equalsIgnoreCase keyToken)

/-- `count` of a hash set, with its hash, its comparison, and what was put into it. -/
abbrev HashSetCount := (Bytes → UInt64) → (Bytes → Bytes → Bool) → List Bytes → Bytes → ℕ

/-- `StringUtil::removeTokens`, where `tokensToRemove` is a `CaseUnorderedSet`. -/
def removeTokens (count : HashSetCount) (source delimiters : Bytes) (tokensToRemove : List Bytes)
    (joiner : Bytes) : Bytes :=
  let values := splitToken source delimiters false true
  joiner.intercalate (values.filter fun t ↦
    ¬ count djb2CaseInsensitiveHash equalsIgnoreCase tokensToRemove t ≠ 0)

/-- A hash set has a key in it if an equal key was put in, provided that equal keys have equal
hashes. -/
structure CorrectHashSet (count : HashSetCount) : Prop where
  /-- What a set may be expected to do, if its two functions agree with each other. -/
  count_ne_zero_iff : ∀ hash equal, (∀ s t, equal s t = true → hash s = hash t) →
    ∀ S t, count hash equal S t ≠ 0 ↔ ∃ s ∈ S, equal s t = true

variable {source delimiters joiner r s t u v : Bytes} {tokensToRemove : List Bytes}
    {count : HashSetCount}

/-! ### Equality ignoring case

Two strings are equal ignoring case if they are the same in lower case, so this is an equivalence,
and everything computed from the lower case is the same for both.
-/

/-- The comparison in a word. -/
theorem equalsIgnoreCase_iff : equalsIgnoreCase s t = true ↔
    s.map asciiToLower = t.map asciiToLower :=
  decide_eq_true_iff

/-- What is equal to the one is equal to the other. -/
theorem equalsIgnoreCase_congr (h : equalsIgnoreCase s t = true) :
    equalsIgnoreCase u s = equalsIgnoreCase u t := by
  rw [equalsIgnoreCase, equalsIgnoreCase, equalsIgnoreCase_iff.1 h]

/-- **The hash ignores case.** It reads nothing but the lower case characters. -/
theorem djb2CaseInsensitiveHash_eq (h : equalsIgnoreCase s t = true) :
    djb2CaseInsensitiveHash s = djb2CaseInsensitiveHash t := by
  have hmap : ∀ input : Bytes, djb2CaseInsensitiveHash input =
      (input.map asciiToLower).foldl
        (fun (hash : UInt64) c ↦ (hash <<< 5 + hash) + c.toInt8.toInt64.toUInt64) 5381 := by
    intro input
    rw [djb2CaseInsensitiveHash, List.foldl_map]
  rw [hmap, hmap, equalsIgnoreCase_iff.1 h]

/-! ### The tokens that both see

`splitToken` with the arguments of `removeTokens` gives the tokens of the library: split at the
delimiters, trimmed, and without the empty ones. `caseFindToken` searches among pieces that may be
empty, which makes no difference to a key that is not.
-/

/-- The tokens of `removeTokens`. -/
theorem splitToken_eq_tokens :
    splitToken source delimiters false true =
      tokens delimiters.contains whitespaceChars.contains source := rfl

/-- A key that is not empty is not equal to nothing. -/
theorem not_equalsIgnoreCase_nil (h : t ≠ []) : equalsIgnoreCase t [] = false := by
  refine decide_eq_false fun heq ↦ h ?_
  rwa [List.map_nil, List.map_eq_nil_iff] at heq

/-- Both functions see the same tokens. -/
theorem caseFindToken_iff (ht : t ≠ []) :
    caseFindToken source delimiters t true = true ↔
      ∃ v ∈ splitToken source delimiters false true, equalsIgnoreCase t v = true := by
  show (source.splitOnP delimiters.contains).any _ = true ↔
    ∃ v ∈ ((source.splitOnP delimiters.contains).filter _).map _, _
  simp only [List.any_eq_true, List.mem_map, exists_exists_and_eq_and]
  refine exists_congr fun piece ↦ ?_
  rw [List.mem_filter, and_assoc]
  refine and_congr_right fun _ ↦ (and_iff_right_of_imp fun hfound ↦ ?_).symm
  rw [Bool.not_eq_true', Bool.eq_false_iff]
  intro hspace
  rw [trim_eq_nil_iff.2 (List.all_eq_true.1 hspace), not_equalsIgnoreCase_nil ht] at hfound
  exact Bool.false_ne_true hfound

/-- The remaining tokens, in order. -/
theorem splitToken_removeTokens (hcount : CorrectHashSet count)
    (hsep : ∃ c ∈ joiner, c ∈ delimiters) (hjoiner : ∀ c ∈ joiner, c ∈ delimiters ∨
      c ∈ whitespaceChars) :
    splitToken (removeTokens count source delimiters tokensToRemove joiner) delimiters false true =
      (splitToken source delimiters false true).filter fun v ↦
        decide (∀ s ∈ tokensToRemove, equalsIgnoreCase s v = false) := by
  have hkept : ∀ v, decide (¬ count djb2CaseInsensitiveHash equalsIgnoreCase tokensToRemove v ≠ 0) =
      decide (∀ s ∈ tokensToRemove, equalsIgnoreCase s v = false) := by
    intro v
    have hfound := hcount.count_ne_zero_iff djb2CaseInsensitiveHash equalsIgnoreCase
      (fun _ _ ↦ djb2CaseInsensitiveHash_eq) tokensToRemove v
    rw [decide_eq_decide, hfound]
    simp only [not_exists, not_and, Bool.not_eq_true]
  rw [removeTokens, splitToken_eq_tokens, splitToken_eq_tokens]
  simp only [hkept]
  refine tokens_intercalate ?_ (fun c hc ↦ ?_) fun v hv ↦
    clean_of_mem_tokens (List.mem_filter.1 hv).1
  · obtain ⟨c, hc, hdelim⟩ := hsep
    exact ⟨c, hc, List.contains_iff_mem.2 hdelim⟩
  · exact (hjoiner c hc).imp List.contains_iff_mem.2 List.contains_iff_mem.2

/-- **A token is found in what is left exactly if it was there and was not to be removed.** What is
left has the remaining tokens in their order and case, and the lookup in the set is sound. -/
theorem removeTokens_spec (hcount : CorrectHashSet count) (source delimiters : Bytes)
    (tokensToRemove : List Bytes) (joiner : Bytes) (hsep : ∃ c ∈ joiner, c ∈ delimiters)
    (hjoiner : ∀ c ∈ joiner, c ∈ delimiters ∨ c ∈ whitespaceChars) :
    let r := removeTokens count source delimiters tokensToRemove joiner
    (∀ t, t ≠ [] → (caseFindToken r delimiters t true = true ↔
      caseFindToken source delimiters t true = true ∧
        ∀ s ∈ tokensToRemove, equalsIgnoreCase s t = false)) ∧
      splitToken r delimiters false true =
        (splitToken source delimiters false true).filter (fun v ↦
          decide (∀ s ∈ tokensToRemove, equalsIgnoreCase s v = false)) ∧
      ∀ s t, equalsIgnoreCase s t = true → djb2CaseInsensitiveHash s =
        djb2CaseInsensitiveHash t := by
  have hremaining := @splitToken_removeTokens source delimiters joiner tokensToRemove count hcount
    hsep hjoiner
  refine ⟨fun t ht ↦ ?_, hremaining, fun s t ↦ djb2CaseInsensitiveHash_eq⟩
  rw [caseFindToken_iff ht, caseFindToken_iff ht, hremaining]
  constructor
  · rintro ⟨v, hv, hequal⟩
    obtain ⟨hv, hkept⟩ := List.mem_filter.1 hv
    refine ⟨⟨v, hv, hequal⟩, fun s hs ↦ ?_⟩
    rw [equalsIgnoreCase_congr hequal]
    exact of_decide_eq_true hkept s hs
  · rintro ⟨⟨v, hv, hequal⟩, hkept⟩
    refine ⟨v, List.mem_filter.2 ⟨hv, decide_eq_true fun s hs ↦ ?_⟩, hequal⟩
    rw [← equalsIgnoreCase_congr hequal]
    exact hkept s hs

/-- A set that looks through the keys with the same hash. -/
def bucketCount : HashSetCount := fun hash equal S t ↦
  if (S.filter fun s ↦ hash s = hash t).any (equal · t) then 1 else 0

/-- Looking through the keys with the same hash is enough, if equal keys have equal hashes. -/
theorem correctHashSet_bucketCount : CorrectHashSet bucketCount := by
  refine ⟨fun hash equal hhash S t ↦ ?_⟩
  have hany : (S.filter fun s ↦ hash s = hash t).any (equal · t) = true ↔
      ∃ s ∈ S, equal s t = true := by
    rw [List.any_filter, List.any_eq_true]
    refine exists_congr fun s ↦ and_congr_right fun _ ↦ ?_
    rw [Bool.and_eq_true, decide_eq_true_iff, and_iff_right_of_imp (hhash s t)]
  rw [← hany, bucketCount]
  split_ifs with hfound
  · exact iff_of_true Nat.one_ne_zero hfound
  · exact iff_of_false (fun h ↦ h rfl) hfound

/-- From `a, ,B ;c`, the token `b` is removed. -/
theorem removeTokens_abc :
    let r := removeTokens bucketCount [97, 44, 32, 44, 66, 32, 59, 99] [44, 59] [[98]] [44, 32]
    r = [97, 44, 32, 99] ∧ caseFindToken r [44, 59] [67] true = true ∧
      caseFindToken r [44, 59] [98] true = false := by
  have h := removeTokens_spec correctHashSet_bucketCount [97, 44, 32, 44, 66, 32, 59, 99] [44, 59]
    [[98]]
    [44, 32] (by decide +kernel) (by decide +kernel)
  have hfound : caseFindToken [97, 44, 32, 44, 66, 32, 59, 99] [44, 59] [67] true =
      true := by decide +kernel
  refine ⟨by decide +kernel, (h.1 [67] (by decide)).2 ⟨hfound, by decide⟩, ?_⟩
  exact Bool.eq_false_iff.2 fun hfound ↦ absurd ((h.1 [98] (by decide)).1 hfound).2 (by decide)

end TcpServer.Common
