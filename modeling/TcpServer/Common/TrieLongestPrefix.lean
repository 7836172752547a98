import Mathlib.Data.List.TakeWhile
import TcpServer.Common.TrieLookupTable
import TcpServer.Lib.LongestPrefix

/-!
# The longest prefix in a trie

`TrieLookupTable::findLongestPrefix` remembers the last node with a value on its way down, and
returns its value when it falls off the trie. When the query ends within the trie, it returns the
value of the node it has got to, and that is the null pointer if the node was only made on the way
to a longer key, even if a shorter key is stored (`findLongestPrefix_iff`).

What was stored is the list of additions, and the value of a key is that of its last one
(`currentValue`). The nodes of a trie are the prefixes of its keys, with or without a value
(`isSome_descend_ofAdded`), so whether a query ends within the trie is a fact about the list of
keys. That makes the condition of `findLongestPrefix_iff` one on the keys and the query.
-/

namespace TcpServer.Common

open Keyed

variable {ν : Type*}

namespace TrieEntry

/-- The loop. The result is `none` if a null pointer is dereferenced. -/
def findLongestPrefix : Option (TrieEntry ν) → Option (TrieEntry ν) → List UInt8 → Option (Option ν)
  | current, result, [] =>
    match current with
    | some current => some current.value
    | none => result.map value
  | current, result, c :: key =>
    current.bind fun current ↦
      let result := if current.value.isSome then some current else result
      match current.entries c with
      | none => some (result.bind value)
      | some next => findLongestPrefix (some next) result key

variable {current node : TrieEntry ν} {q : List UInt8}

/-- The query ends at a node. -/
theorem findLongestPrefix_of_descend_eq_some (h : current.descend q = some node)
    (result : Option (TrieEntry ν)) : findLongestPrefix (some current) result q =
    some node.value := by
  induction q generalizing current result with
  | nil =>
    obtain rfl : current = node := Option.some.inj h
    rfl
  | cons c q ih =>
    rw [descend] at h
    obtain ⟨next, hnext, h⟩ := Option.bind_eq_some_iff.1 h
    rw [findLongestPrefix, Option.bind_some, hnext]
    exact ih h _

/-- The query leads off the trie. -/
theorem findLongestPrefix_of_descend_eq_none (h : current.descend q = none)
    (result : Option (TrieEntry ν)) :
    findLongestPrefix (some current) result q =
      some ((longestPrefix current.find q).or (result.bind value)) := by
  induction q generalizing current result with
  | nil => exact absurd h (Option.some_ne_none current)
  | cons c q ih =>
    have hresult : (if current.value.isSome then some current else result).bind value =
        current.value.or (result.bind value) := by
      rcases hvalue : current.value with _ | v
      · rfl
      · exact hvalue
    rw [findLongestPrefix, Option.bind_some, longestPrefix, Option.or_assoc, find_nil, ← hresult]
    rcases hnext : current.entries c with _ | next
    · have hnone : longestPrefix (fun p ↦ current.find (c :: p)) q = none := by
        refine longestPrefix_eq_none_iff.2 fun p _ ↦ ?_
        rw [find_cons, hnext]
        rfl
      rw [hnone]
      rfl
    · rw [descend, hnext, Option.bind_some] at h
      have hfind : (fun p ↦ current.find (c :: p)) = next.find := by
        funext p
        rw [find_cons, hnext]
        rfl
      rw [hfind]
      exact ih h _

end TrieEntry

namespace TrieLookupTable

/-- `TrieLookupTable::findLongestPrefix`. The key ends before its first NUL. -/
def findLongestPrefix (table : TrieLookupTable ν) (key : List UInt8) : Option (Option ν) :=
  TrieEntry.findLongestPrefix (some table.root) none (key.takeWhile (· ≠ 0))

/-- The additions of keys and values, with `overwrite_existing` left out. -/
def ofAdded (added : List (List UInt8 × ν)) : TrieLookupTable ν :=
  (addAll (added.map fun entry ↦ { key := entry.1, value := entry.2 })).1

/-- The value that was added last. -/
def currentValue (added : List (List UInt8 × ν)) (k : List UInt8) : Option ν :=
  (latest (fun entry ↦ decide (entry.1 = k)) added).map Prod.snd

variable {added : List (List UInt8 × ν)} {k q : List UInt8}

/-- The last addition of a list is made after the others. -/
theorem ofAdded_append_singleton (added : List (List UInt8 × ν)) (entry : List UInt8 × ν) :
    (ofAdded (added ++ [entry])).root =
      ((ofAdded added).root.add entry.1 (some entry.2) true).1 := by
  rw [ofAdded, List.map_append, List.map_singleton, addAll_append_singleton]
  rfl

/-- A lookup finds the value that was added last. -/
theorem find_ofAdded (added : List (List UInt8 × ν)) (k : List UInt8) :
    (ofAdded added).root.find k = currentValue added k := by
  induction added using List.reverseRecOn with
  | nil => exact find_empty k
  | append_singleton added entry ih =>
    have htrue : ((ofAdded added).root.add entry.1 (some entry.2) true).2 = true :=
      Bool.ne_false_iff.1 fun h ↦ absurd ((TrieEntry.add_snd_eq_false_iff entry.1).1 h).1
        Bool.false_ne_true.symm
    rw [ofAdded_append_singleton, TrieEntry.find_add, htrue, currentValue, latest_append_singleton,
      apply_ite (Option.map Prod.snd)]
    refine if_congr ?_ rfl ih
    rw [and_iff_left rfl, decide_eq_true_iff]
    exact eq_comm

/-- A key has no value if it was never added. -/
theorem currentValue_eq_none_iff : currentValue added k = none ↔ ∀ entry ∈ added, entry.1 ≠ k := by
  rw [currentValue, Option.map_eq_none_iff, latest_eq_none_iff]
  exact forall₂_congr fun entry _ ↦ decide_eq_false_iff_not

/-- The nodes are the prefixes of the keys, and the root. -/
theorem isSome_descend_ofAdded :
    ((ofAdded added).root.descend k).isSome ↔ k = [] ∨ ∃ entry ∈ added, k <+: entry.1 := by
  induction added using List.reverseRecOn with
  | nil =>
    match k with
    | [] => exact iff_of_true rfl (.inl rfl)
    | c :: k =>
      refine iff_of_false Bool.false_ne_true ?_
      rintro (h | ⟨entry, h, -⟩)
      · exact List.cons_ne_nil c k h
      · exact List.not_mem_nil h
  | append_singleton added entry ih =>
    rw [ofAdded_append_singleton, TrieEntry.isSome_descend_add, ih, or_assoc]
    simp only [List.mem_append, List.mem_singleton, or_and_right, exists_or, exists_eq_left]

/-- The longest stored key that is a prefix is found, and no null pointer is dereferenced. -/
def FindsLongestPrefix (added : List (List UInt8 × ν)) (q : List UInt8) : Prop :=
  ∃ r, (ofAdded added).findLongestPrefix q = some r ∧ Longest (currentValue added) q r

/-- The result of the search: the value of the query itself where it ends at a node, and that of its
longest prefix where it does not. -/
theorem findLongestPrefix_eq (hq : 0 ∉ q) :
    (ofAdded added).findLongestPrefix q =
      some (if ((ofAdded added).root.descend q).isSome then currentValue added q
        else longestPrefix (currentValue added) q) := by
  have hkey : q.takeWhile (· ≠ 0) = q :=
    List.takeWhile_eq_self_iff.2 fun c hc ↦ decide_eq_true fun h ↦ hq (h ▸ hc)
  rw [findLongestPrefix, hkey]
  rcases hdescend : (ofAdded added).root.descend q with _ | node
  · rw [TrieEntry.findLongestPrefix_of_descend_eq_none hdescend, funext (find_ofAdded added)]
    exact congrArg some (Option.or_none)
  · rw [TrieEntry.findLongestPrefix_of_descend_eq_some hdescend, ← find_ofAdded, TrieEntry.find,
      hdescend]
    rfl

/-- **When the longest prefix is found.** The query is a key itself, or it does not end within the
trie, or there is nothing to find. -/
theorem findLongestPrefix_iff (added : List (List UInt8 × ν)) (hq : 0 ∉ q) :
    FindsLongestPrefix added q ↔
      (∃ entry ∈ added, entry.1 = q) ∨ (∀ entry ∈ added, ¬ q <+: entry.1) ∨
        ∀ entry ∈ added, ¬ entry.1 <+: q := by
  have hfinds : FindsLongestPrefix added q ↔
      (if ((ofAdded added).root.descend q).isSome then currentValue added q
        else longestPrefix (currentValue added) q) = longestPrefix (currentValue added) q := by
    rw [FindsLongestPrefix, findLongestPrefix_eq hq, ← longest_iff]
    exact ⟨fun ⟨r, hr, h⟩ ↦ Option.some.inj hr ▸ h, fun h ↦ ⟨_, rfl, h⟩⟩
  have hkey : currentValue added q ≠ none ↔ ∃ entry ∈ added, entry.1 = q := by
    simp only [ne_eq, currentValue_eq_none_iff, not_forall, not_not, exists_prop]
  have hnothing : longestPrefix (currentValue added) q = none ↔
      ∀ entry ∈ added, ¬ entry.1 <+: q := by
    rw [longestPrefix_eq_none_iff]
    exact ⟨fun h entry hentry hp ↦ currentValue_eq_none_iff.1 (h _ hp) entry hentry rfl,
      fun h p hp ↦ currentValue_eq_none_iff.2 fun entry hentry heq ↦ h entry hentry (heq ▸ hp)⟩
  rw [hfinds, ← hkey, ← hnothing]
  by_cases hstored : currentValue added q = none
  · rw [or_iff_right (not_not_intro hstored), hstored]
    split_ifs with hsome
    · have hnode := isSome_descend_ofAdded.1 hsome
      refine ⟨fun h ↦ .inr h.symm, ?_⟩
      rintro (hnone | hnothing)
      · obtain rfl : q = [] := hnode.resolve_right fun ⟨entry, hentry, hp⟩ ↦ hnone entry hentry hp
        exact hstored.symm
      · exact hnothing.symm
    · refine iff_of_true rfl (.inl fun entry hentry hp ↦ hsome ?_)
      exact isSome_descend_ofAdded.2 (.inr ⟨entry, hentry, hp⟩)
  · rw [longestPrefix_of_ne_none hstored, ite_self]
    exact iff_of_true rfl (.inl hstored)

/-- The query leaves the trie behind `ab`, and the value of `a` is found. -/
theorem findLongestPrefix_abc :
    FindsLongestPrefix [([97], 1), ([97, 98, 99], 2)] [97, 98, 100] :=
  (findLongestPrefix_iff [([97], 1), ([97, 98, 99], 2)] (by decide)).2 (.inr (.inl (by decide)))

/-- With `a` and `abc` added, nothing is found for `ab`. -/
theorem findLongestPrefix_ab : ¬ FindsLongestPrefix [([97], 1), ([97, 98, 99], 2)] [97, 98] := by
  rintro ⟨r, hr, h⟩
  have hnull : r = none := (Option.some.inj hr).symm
  subst hnull
  have hnone := longestPrefix_eq_none_iff.1 (longest_iff.1 h).symm [97] ⟨[98], rfl⟩
  exact absurd hnone (by decide)

end TrieLookupTable

end TcpServer.Common
