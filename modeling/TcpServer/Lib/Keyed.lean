import Mathlib.Data.List.Basic
import Mathlib.Data.List.FinRange
import Mathlib.Data.List.Nodup
import Mathlib.Data.List.Perm.Basic
import Mathlib.Tactic.Common

/-!
# Lists with keys

A list whose entries are told apart by a key is changed at one key by `Put`: the new entry takes the
place of the old one, or the last place if there is none. Keys stay distinct (`Put.nodup`), the new
entry is the only one of its key (`Put.filter_eq`), and every other entry stays where it is
(`Put.getElem?_eq_some_iff`).

`lastWhere` is a search that runs to the end of the list and keeps the last match; where keys are
distinct it is the only one. `latest` is the latest entry of a history that has a property, which is
what a map holds whose writes overwrite each other.

Taking the entries key by key takes each of them once (`perm_flatMap_filter`).
-/

namespace TcpServer.Keyed

variable {α κ : Type*}

/-! ### Search

The loop of a search that does not stop remembers an index, and the last one that matched is what it
returns.
-/

/-- The loop, from its `ret` on. -/
def lastWhereFrom (p : α → Prop) [DecidablePred p] (ls : List α) (ret : Option (Fin ls.length))
    (its : List (Fin ls.length)) : Option (Fin ls.length) :=
  its.foldl (fun ret it ↦ if p (ls.get it) then some it else ret) ret

/-- The last entry where `p` holds. -/
def lastWhere (p : α → Prop) [DecidablePred p] (ls : List α) : Option (Fin ls.length) :=
  lastWhereFrom p ls none (List.finRange ls.length)

variable {p : α → Prop} [DecidablePred p] {ls : List α}

theorem lastWhereFrom_eq_some {ret : Option (Fin ls.length)} {its : List (Fin ls.length)}
    {it : Fin ls.length} (h : lastWhereFrom p ls ret its = some it) :
    ret = some it ∨ p (ls.get it) := by
  induction its generalizing ret with
  | nil => exact .inl h
  | cons i its ih =>
    rcases ih h with hret | hp
    · dsimp only at hret
      split_ifs at hret with hi
      · exact .inr (Option.some.inj hret ▸ hi)
      · exact .inl hret
    · exact .inr hp

theorem lastWhereFrom_eq_none {ret : Option (Fin ls.length)} {its : List (Fin ls.length)}
    (h : lastWhereFrom p ls ret its = none) : ret = none ∧ ∀ it ∈ its, ¬ p (ls.get it) := by
  induction its generalizing ret with
  | nil => exact ⟨h, fun _ h ↦ nomatch h⟩
  | cons i its ih =>
    obtain ⟨hret, hits⟩ := ih h
    dsimp only at hret
    split_ifs at hret with hi
    exact ⟨hret, List.forall_mem_cons.2 ⟨hi, hits⟩⟩

/-- The entry found has the property. -/
theorem of_lastWhere_eq_some {it : Fin ls.length} (h : lastWhere p ls = some it) : p (ls.get it) :=
  (lastWhereFrom_eq_some h).resolve_left (nomatch ·)

/-- Where none is found, none has it. -/
theorem of_lastWhere_eq_none (h : lastWhere p ls = none) : ∀ x ∈ ls, ¬ p x := by
  intro x hx
  obtain ⟨it, rfl⟩ := List.get_of_mem hx
  exact (lastWhereFrom_eq_none h).2 it (List.mem_finRange it)

/-! ### Change at one key

A replacement and an addition at the end have the same consequences, so they are one relation with
two constructors.
-/

/-- `x` takes the place of the entry of its key, or the last place if there is none. -/
inductive Put (key : α → κ) (x : α) (before : List α) : List α → Prop
  | replace (it : Fin before.length) (h : key (before.get it) = key x) :
      Put key x before (before.set it x)
  | append (h : ∀ y ∈ before, key y ≠ key x) : Put key x before (before ++ [x])

namespace Put

variable {key : α → κ} {x : α} {before after : List α}

/-- Keys that were distinct stay distinct. -/
theorem nodup (h : Put key x before after) (hnodup : (before.map key).Nodup) :
    (after.map key).Nodup := by
  cases h with
  | replace it h =>
    have hsame : (before.map key).set it (key x) = before.map key := by
      rw [← h, ← List.map_set]
      exact congrArg (List.map key) (List.set_getElem_self it.isLt)
    rwa [List.map_set, hsame]
  | append h =>
    rw [List.map_append, List.nodup_append]
    refine ⟨hnodup, List.nodup_singleton _, ?_⟩
    rintro _ hmem _ hx
    obtain ⟨y, hy, rfl⟩ := List.mem_map.1 hmem
    obtain rfl := List.mem_singleton.1 hx
    exact h y hy

theorem mem (h : Put key x before after) : x ∈ after := by
  cases h with
  | replace it h => exact List.mem_set it.isLt x
  | append h => exact List.mem_append_right _ (List.mem_singleton_self x)

/-- What is there now was there before, or is the new entry. -/
theorem eq_or_mem (h : Put key x before after) {y : α} (hy : y ∈ after) : y = x ∨ y ∈ before := by
  cases h with
  | replace it h => exact (List.mem_or_eq_of_mem_set hy).symm
  | append h => exact (List.mem_append.1 hy).symm.imp_left List.mem_singleton.1

/-- The new entry is the only one of its key. -/
theorem filter_eq [DecidableEq κ] (h : Put key x before after) (hnodup : (before.map key).Nodup) :
    after.filter (key · = key x) = [x] := by
  have hunique : ∀ y ∈ after, key y = key x → y = x :=
    fun y hy hkey ↦ List.inj_on_of_nodup_map (h.nodup hnodup) hy h.mem hkey
  have hx : x ∈ after.filter (key · = key x) := List.mem_filter.2 ⟨h.mem, decide_eq_true rfl⟩
  have hall : ∀ y ∈ after.filter (key · = key x), y = x := fun y hy ↦
    hunique y (List.mem_filter.1 hy).1 (of_decide_eq_true (List.mem_filter.1 hy).2)
  have hrepl := List.eq_replicate_of_mem hall
  have hnodup' : (after.filter (key · = key x)).Nodup :=
    (List.Nodup.of_map key (h.nodup hnodup)).filter _
  have hle : (after.filter (key · = key x)).length ≤ 1 := by
    rwa [hrepl, List.nodup_replicate] at hnodup'
  have hlen : (after.filter (key · = key x)).length = 1 :=
    Nat.le_antisymm hle (List.length_pos_of_mem hx)
  rw [hrepl, hlen]
  rfl

/-- Every entry of another key stays where it is. -/
theorem getElem?_eq_some_iff (h : Put key x before after) {y : α} (hy : key y ≠ key x) {i : ℕ} :
    after[i]? = some y ↔ before[i]? = some y := by
  cases h with
  | replace it h =>
    obtain rfl | hi := eq_or_ne i it
    · refine iff_of_false (fun hx ↦ hy ?_) (fun hold ↦ hy ?_)
      · rw [List.getElem?_set_self it.isLt] at hx
        rw [Option.some.inj hx]
      · rw [List.getElem?_eq_getElem it.isLt] at hold
        rw [← Option.some.inj hold]
        exact h
    · rw [List.getElem?_set_ne hi.symm]
  | append h =>
    rcases Nat.lt_or_ge i before.length with hi | hi
    · rw [List.getElem?_append_left hi]
    · rw [List.getElem?_append_right hi, List.getElem?_eq_none hi]
      refine iff_of_false (fun hx ↦ hy ?_) (fun h ↦ nomatch h)
      rw [List.mem_singleton.1 (List.mem_of_getElem? hx)]

end Put

/-! ### The latest entry of a history

A history grows at its end, and what counts is the last entry with a property.
-/

/-- The latest entry where `p` holds. -/
def latest (p : α → Bool) (history : List α) : Option α := (history.filter p).getLast?

@[simp] theorem latest_nil (p : α → Bool) : latest p [] = none := rfl

/-- The newest entry is the latest, if it has the property. -/
theorem latest_append_singleton (p : α → Bool) (history : List α) (x : α) :
    latest p (history ++ [x]) = if p x then some x else latest p history := by
  rw [latest, List.filter_append, List.filter_singleton]
  split_ifs with hx
  · rw [hx, cond_true, List.getLast?_concat]
  · rw [Bool.eq_false_iff.2 hx, cond_false, List.append_nil]
    rfl

theorem of_latest_eq_some {p : α → Bool} {history : List α} {x : α}
    (h : latest p history = some x) :
    x ∈ history ∧ p x = true :=
  List.mem_filter.1 (List.mem_of_getLast? h)

/-- Nothing is found if no entry has the property. -/
theorem latest_eq_none_iff {p : α → Bool} {history : List α} :
    latest p history = none ↔ ∀ x ∈ history, p x = false := by
  rw [latest, List.getLast?_eq_none_iff, List.filter_eq_nil_iff]
  exact forall₂_congr fun x _ ↦ iff_of_eq (Bool.not_eq_true (p x))

/-! ### Groups

For each of some keys the entries of that key are taken, in order. No key is left out and none comes
twice, so each entry is taken once.
-/

theorem flatMap_ite_eq [DecidableEq κ] {ks : List κ} (hks : ks.Nodup) {k : κ} (hk : k ∈ ks)
    (xs : List α) : (ks.flatMap fun j ↦ if k = j then xs else []) = xs := by
  induction ks with
  | nil => simp at hk
  | cons j ks ih =>
    rw [List.flatMap_cons]
    rcases List.mem_cons.1 hk with rfl | hmem
    · have hrest : (ks.flatMap fun j ↦ if k = j then xs else []) = [] :=
        List.flatMap_eq_nil_iff.2 fun i hi ↦
          if_neg fun heq : k = i ↦ (List.nodup_cons.1 hks).1 (heq ▸ hi)
      rw [if_pos rfl, hrest, List.append_nil]
    · have hne : k ≠ j := fun heq ↦ (List.nodup_cons.1 hks).1 (heq ▸ hmem)
      rw [if_neg hne, List.nil_append]
      exact ih (List.nodup_cons.1 hks).2 hmem

/-- The entries key by key are the entries. -/
theorem perm_flatMap_filter [DecidableEq κ] {key : α → κ} {ks : List κ} (hks : ks.Nodup)
    (l : List α) (hl : ∀ x ∈ l, key x ∈ ks) :
    l.Perm (ks.flatMap fun k ↦ l.filter (key · = k)) := by
  induction l with
  | nil => simp
  | cons x l ih =>
    have hcons (k : κ) : (x :: l).filter (key · = k) =
        (if key x = k then [x] else []) ++ l.filter (key · = k) := by
      by_cases hx : key x = k <;> simp [hx]
    have hx : (ks.flatMap fun k ↦ if key x = k then [x] else []) = [x] :=
      flatMap_ite_eq hks (hl x List.mem_cons_self) [x]
    simp only [hcons]
    refine List.Perm.trans ?_ (List.flatMap_append_perm _ _ _)
    rw [hx]
    exact (ih fun y hy ↦ hl y (List.mem_cons_of_mem x hy)).cons x

end TcpServer.Keyed
