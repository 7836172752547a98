import Mathlib.Data.List.Induction
import TcpServer.Lib.Keyed

/-!
# Lookup in a trie

`TrieLookupTable` finds values by walking down from the root, one byte of the key at a time. `add`
makes the nodes that are missing on the way, also if it refuses the value in the end. What it does
to the lookups is the update of a finite map at one key (`find_add`), so a table is the map of the
additions that were not refused (`addAll_spec`).

A node has one entry for each byte, so the table is a tree in which the recursion of all functions
is on the key. What is stored is a pointer, and a node without a value is not told from a node that
is not there (`find_getD`); this is why only the lookup is compared with a map, while the nodes that
a refused addition has made are a fact of their own (`isSome_descend_add`).
-/

namespace TcpServer.Common

open Keyed

variable {ν : Type*}

/-- A value is a pointer: `none` is the null pointer. -/
structure TrieEntry (ν : Type*) where
  /-- `value_`. -/
  value : Option ν := none
  /-- `entries_`, by the next byte of the key. -/
  entries : UInt8 → Option (TrieEntry ν) := fun _ ↦ none

namespace TrieEntry

/-- `TrieLookupTable::add`, from a node on. -/
def add : TrieEntry ν → List UInt8 → Option ν → Bool → TrieEntry ν × Bool
  | current, [], value, overwriteExisting =>
    if current.value.isSome ∧ overwriteExisting = false then (current, false)
    else ({ current with value }, true)
  | current, c :: key, value, overwriteExisting =>
    let next := ((current.entries c).getD {}).add key value overwriteExisting
    ({ current with entries := Function.update current.entries c (some next.1) }, next.2)

/-- The node at the end of a key. -/
def descend : TrieEntry ν → List UInt8 → Option (TrieEntry ν)
  | current, [] => some current
  | current, c :: key => (current.entries c).bind (descend · key)

/-- `TrieLookupTable::find`, from a node on. -/
def find (current : TrieEntry ν) (key : List UInt8) : Option ν := (current.descend key).bind value

variable {current : TrieEntry ν} {value : Option ν} {overwriteExisting : Bool} {c : UInt8}

/-- At the end of the key is the value of the node. -/
@[simp] theorem find_nil : current.find [] = current.value := rfl

/-- A lookup goes down by the first byte of its key. -/
theorem find_cons (key : List UInt8) : current.find (c :: key) =
    (current.entries c).bind (find · key) := by
  rw [find, descend, Option.bind_assoc]
  rfl

/-- A node made on the way is a null pointer for the lookup until it gets a value. -/
theorem find_getD (key : List UInt8) :
    ((current.entries c).getD {}).find key = (current.entries c).bind (find · key) := by
  match current.entries c with
  | some next => rfl
  | none =>
    match key with
    | [] => rfl
    | _ :: _ => rfl

/-- The addition goes on in the entry of the first byte, which is made if it is missing. -/
theorem entries_add_self (key : List UInt8) :
    (current.add (c :: key) value overwriteExisting).1.entries c =
      some (((current.entries c).getD {}).add key value overwriteExisting).1 :=
  Function.update_self ..

/-- The other entries are as they were. -/
theorem entries_add_of_ne {c' : UInt8} (h : c' ≠ c) (key : List UInt8) :
    (current.add (c :: key) value overwriteExisting).1.entries c' = current.entries c' :=
  Function.update_of_ne h ..

/-- Whether the value is taken is decided further down. -/
theorem add_cons_snd (key : List UInt8) :
    (current.add (c :: key) value overwriteExisting).2 =
      (((current.entries c).getD {}).add key value overwriteExisting).2 := rfl

/-- A value is refused if there is one and it is not to be overwritten. -/
theorem add_snd_eq_false_iff (key : List UInt8) :
    (current.add key value overwriteExisting).2 = false ↔
      overwriteExisting = false ∧ current.find key ≠ none := by
  induction key generalizing current with
  | nil =>
    rw [add, apply_ite Prod.snd, find_nil, ← Option.isSome_iff_ne_none]
    split_ifs with hrefused
    · exact iff_of_true rfl hrefused.symm
    · exact iff_of_false id fun h ↦ hrefused h.symm
  | cons c key ih => rw [add_cons_snd, ih, find_getD, find_cons]

/-- **The lookup after an addition.** -/
theorem find_add (key k : List UInt8) :
    (current.add key value overwriteExisting).1.find k =
      if k = key ∧ (current.add key value overwriteExisting).2 = true then value
        else current.find k := by
  induction key generalizing current k with
  | nil =>
    by_cases hrefused : current.value.isSome ∧ overwriteExisting = false
    · rw [add, if_pos hrefused, if_neg fun h ↦ Bool.false_ne_true h.2]
    · rw [add, if_neg hrefused]
      match k with
      | [] => rfl
      | c' :: k =>
        rw [if_neg fun h ↦ List.cons_ne_nil c' k h.1]
        rfl
  | cons c key ih =>
    match k with
    | [] =>
      rw [if_neg fun h ↦ List.cons_ne_nil c key h.1.symm]
      rfl
    | c' :: k =>
      rw [find_cons, find_cons, add_cons_snd]
      rcases eq_or_ne c' c with rfl | hne
      · rw [entries_add_self, Option.bind_some, ih, find_getD]
        exact if_congr (and_congr_left' (List.cons_inj_right c').symm) rfl rfl
      · rw [entries_add_of_ne hne, if_neg fun h ↦ hne (List.cons.inj h.1).1]

/-- Every node on the way to the key is there after an addition, even if that was refused. -/
theorem isSome_descend_add (key k : List UInt8) :
    ((current.add key value overwriteExisting).1.descend k).isSome ↔
      (current.descend k).isSome ∨ k <+: key := by
  induction key generalizing current k with
  | nil =>
    match k with
    | [] => exact iff_of_true rfl (.inl rfl)
    | c' :: k =>
      rw [List.prefix_nil, or_iff_left (List.cons_ne_nil c' k), add]
      split_ifs <;> rfl
  | cons c key ih =>
    match k with
    | [] => exact iff_of_true rfl (.inl rfl)
    | c' :: k =>
      rw [List.cons_prefix_cons, descend, descend]
      rcases eq_or_ne c' c with rfl | hne
      · rw [and_iff_right rfl, entries_add_self, Option.bind_some, ih]
        match current.entries c' with
        | some next => rfl
        | none =>
          match k with
          | [] => exact iff_of_true (.inl rfl) (.inr List.nil_prefix)
          | _ :: _ => rfl
      · rw [or_iff_left fun h ↦ hne h.1, entries_add_of_ne hne]

end TrieEntry

/-- `TrieLookupTable`. -/
structure TrieLookupTable (ν : Type*) where
  /-- `root_`. -/
  root : TrieEntry ν := {}

/-- A call of `add` with a value that is not null. -/
structure AddCall (ν : Type*) where
  /-- The key, byte by byte. -/
  key : List UInt8
  /-- What is to be found under it. -/
  value : ν
  /-- Whether a value that is there is replaced. -/
  overwriteExisting : Bool := true

namespace TrieLookupTable

/-- `add`: the new table, and whether the value was taken. -/
def add (table : TrieLookupTable ν) (key : List UInt8) (value : Option ν)
    (overwriteExisting : Bool) :
    TrieLookupTable ν × Bool :=
  let added := table.root.add key value overwriteExisting
  ({ root := added.1 }, added.2)

/-- `find`. -/
def find (table : TrieLookupTable ν) (key : List UInt8) : Option ν := table.root.find key

/-- One call more: the table, and the calls made so far with what they returned. -/
def step (state : TrieLookupTable ν × List (AddCall ν × Bool)) (call : AddCall ν) :
    TrieLookupTable ν × List (AddCall ν × Bool) :=
  let added := state.1.add call.key (some call.value) call.overwriteExisting
  (added.1, state.2 ++ [(call, added.2)])

/-- The calls one after the other, on a table just made. -/
def addAll (calls : List (AddCall ν)) : TrieLookupTable ν × List (AddCall ν × Bool) :=
  calls.foldl step ({}, [])

/-- The last call for the key that was not refused. -/
def lastAdded (log : List (AddCall ν × Bool)) (k : List UInt8) : Option (AddCall ν × Bool) :=
  latest (fun entry ↦ decide (entry.1.key = k) && entry.2) log

/-- The last call is made on what the others have left. -/
theorem addAll_append_singleton (calls : List (AddCall ν)) (call : AddCall ν) :
    addAll (calls ++ [call]) = step (addAll calls) call := by
  rw [addAll, List.foldl_append]
  rfl

/-- Nothing is found in an empty table. -/
theorem find_empty (k : List UInt8) : ({} : TrieLookupTable ν).find k = none := by
  match k with
  | [] => rfl
  | _ :: _ => rfl

/-- **The table is a finite map.** A lookup finds what the last successful addition of the key has
put there. Of the next call, wherever the calls before it led: it is refused exactly if there is a
value that is not to be overwritten, and then it changes no lookup; and it changes no lookup of
another key. -/
theorem addAll_spec (calls : List (AddCall ν)) :
    (∀ k, (addAll calls).1.find k = (lastAdded (addAll calls).2 k).map (·.1.value)) ∧
      ∀ call : AddCall ν,
        let added := (addAll calls).1.add call.key (some call.value) call.overwriteExisting
        (added.2 = false ↔ call.overwriteExisting = false ∧ (addAll calls).1.find call.key ≠ none) ∧
        (added.2 = false → ∀ k, added.1.find k = (addAll calls).1.find k) ∧
        ∀ k, k ≠ call.key → added.1.find k = (addAll calls).1.find k := by
  constructor
  · induction calls using List.reverseRecOn with
    | nil => exact find_empty
    | append_singleton calls call ih =>
      intro k
      rw [addAll_append_singleton]
      show TrieEntry.find (TrieEntry.add _ _ _ _).1 k =
        (latest _ ((addAll calls).2 ++ [(call, _)])).map _
      rw [TrieEntry.find_add, latest_append_singleton,
        apply_ite (Option.map fun entry : AddCall ν × Bool ↦ entry.1.value)]
      refine if_congr ?_ rfl (ih k)
      rw [Bool.and_eq_true, decide_eq_true_iff]
      exact and_congr_left' eq_comm
  · intro call
    refine ⟨TrieEntry.add_snd_eq_false_iff call.key, fun hrefused k ↦ ?_, fun k hk ↦ ?_⟩
    · exact (TrieEntry.find_add call.key k).trans
        (if_neg fun h ↦ Bool.false_ne_true (hrefused.symm.trans h.2))
    · exact (TrieEntry.find_add call.key k).trans (if_neg fun h ↦ hk h.1)

end TrieLookupTable

end TcpServer.Common
