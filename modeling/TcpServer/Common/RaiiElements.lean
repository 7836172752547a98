import TcpServer.Lib.Machine
import Mathlib.Data.List.Basic
import Mathlib.Data.List.Nodup
import Mathlib.Logic.Function.Basic
import Mathlib.Tactic.Common

/-!
# Elements that go with their wrappers

A `RaiiMapOfListElement` puts an element in front of a list that is the entry of a map, and its
destructor takes it out again, with the list if nothing is left in it. `cancel` keeps the destructor
from that, and whoever invalidates the iterator otherwise has to call it.

What the map should hold is read off the calls (`recorded`). It does, whatever the order in which
the wrappers go (`Inv.map_eq`), and a destructor goes wrong only where its element is gone and
nobody has cancelled it (`destruct_eq_none_iff`).

The invariant `Inv` relates a state to what was recorded of the calls before it: the lists hold the
recorded elements, newest first, and a wrapper that lives knows under which key its element was put
in. `Inv.step` is the step lemma, one case for each call, and `inv_of_run` follows by induction on
the run.

Two facts need the callers to leave the map alone and are kept apart from the invariant: that no key
has an empty list (`ne_nil_step`), and that each element is where its wrapper looks for it
(`InPlace`).
-/

namespace TcpServer.Common

open Machine

variable {κ ν : Type*}

/-- A wrapper: `key_` and `cancelled_`. The node behind `it_` has the number of the wrapper. -/
structure RaiiMapOfListElement (κ : Type*) where
  /-- The key it was made with. -/
  key : κ
  /-- Set by `cancel`. -/
  cancelled : Bool := false

/-- The map, the wrappers that live, and how many there have been. -/
structure RaiiMap (κ ν : Type*) where
  /-- The lists by key, each with its elements from the front. -/
  map : κ → Option (List (ℕ × ν)) := fun _ ↦ none
  /-- The wrappers by number, none for one that is destroyed. -/
  elements : ℕ → Option (RaiiMapOfListElement κ) := fun _ ↦ none
  /-- The number of the next wrapper. -/
  constructed : ℕ := 0

/-- The last two are not calls of a wrapper: an element is erased from its list some other way, or a
list from the map. -/
inductive RaiiCall (κ ν : Type*)
  | construct (element : ℕ) (key : κ) (value : ν)
  | cancel (element : ℕ)
  | destruct (element : ℕ)
  | eraseNode (key : κ) (element : ℕ)
  | eraseKey (key : κ)
deriving DecidableEq

namespace RaiiMap

variable [DecidableEq κ]

/-- `RaiiMapOfListElement::erase`. There is no result where the key is not in the map or the
iterator is not valid. -/
def erase (s : RaiiMap κ ν) (key : κ) (element : ℕ) : Option (RaiiMap κ ν) :=
  match s.map key with
  | none => none
  | some list =>
    if element ∈ list.map Prod.fst then
      let list := list.filter (·.1 ≠ element)
      some { s with map := Function.update s.map key (if list.isEmpty then none else some list) }
    else none

/-- One call. A wrapper has the number that comes next, its element goes to the front of the list
under its key, and only a wrapper that lives is cancelled or destroyed. -/
def step (a : RaiiCall κ ν) (s : RaiiMap κ ν) : Option (RaiiMap κ ν) :=
  match a with
  | .construct element key value =>
    if element = s.constructed then
      some {
        map := Function.update s.map key (some ((element, value) :: (s.map key).getD []))
        elements := Function.update s.elements element (some { key })
        constructed := s.constructed + 1 }
    else none
  | .cancel element =>
    (s.elements element).map fun e ↦
      { s with elements := Function.update s.elements element (some { e with cancelled := true }) }
  | .destruct element =>
    match s.elements element with
    | none => none
    | some e =>
      let destroyed : RaiiMap κ ν := { s with elements := Function.update s.elements element none }
      if e.cancelled then some destroyed else destroyed.erase e.key element
  | .eraseNode key element =>
    match s.map key with
    | none => none
    | some list =>
      if element ∈ list.map Prod.fst then
        some { s with map := Function.update s.map key (some (list.filter (·.1 ≠ element))) }
      else none
  | .eraseKey key => some { s with map := Function.update s.map key none }

end RaiiMap

/-! ### What the map should hold

The calls alone say which elements should be there. A destructor of a cancelled wrapper takes
nothing away, and whatever else is erased is gone.
-/

/-- The elements that are there, the newest first, and the wrappers that have been cancelled. -/
structure Recorded (κ ν : Type*) where
  /-- The elements, each with its key and its value. -/
  present : List (ℕ × κ × ν) := []
  /-- The wrappers whose `cancel` was called. -/
  cancelled : List ℕ := []

namespace Recorded

variable [DecidableEq κ]

/-- What one more call changes. -/
def record (p : Recorded κ ν) : RaiiCall κ ν → Recorded κ ν
  | .construct element key value => { p with present := (element, key, value) :: p.present }
  | .cancel element => { p with cancelled := element :: p.cancelled }
  | .destruct element =>
    if element ∈ p.cancelled then p else { p with present := p.present.filter (·.1 ≠ element) }
  | .eraseNode _ element => { p with present := p.present.filter (·.1 ≠ element) }
  | .eraseKey key => { p with present := p.present.filter (·.2.1 ≠ key) }

/-- The elements under a key. -/
def under (p : Recorded κ ν) (key : κ) : List (ℕ × ν) :=
  p.present.filterMap fun n ↦ if n.2.1 = key then some (n.1, n.2.2) else none

end Recorded

/-- What a list of calls leaves. -/
def recorded [DecidableEq κ] (as : List (RaiiCall κ ν)) : Recorded κ ν :=
  as.foldl Recorded.record {}

variable [DecidableEq κ] {s s' : RaiiMap κ ν} {p : Recorded κ ν} {key : κ} {element : ℕ}

namespace Recorded

/-- An element is under a key if it was put there. -/
theorem mem_under {n : ℕ × ν} : n ∈ p.under key ↔ (n.1, key, n.2) ∈ p.present := by
  rw [under, List.mem_filterMap]
  constructor
  · rintro ⟨⟨r, k, v⟩, hmem, hn⟩
    obtain ⟨hk, heq⟩ := Option.ite_none_right_eq_some.1 hn
    obtain rfl : (r, v) = n := Option.some.inj heq
    obtain rfl : k = key := hk
    exact hmem
  · exact fun hmem ↦ ⟨_, hmem, if_pos rfl⟩

/-- A new element is in front of those under its key, and the other keys are as they were. -/
theorem under_construct (p : Recorded κ ν) (element : ℕ) (key : κ) (value : ν) (k : κ) :
    (p.record (.construct element key value)).under k =
      if k = key then (element, value) :: p.under key else p.under k := by
  split_ifs with hk
  · subst hk
    exact List.filterMap_cons_some (if_pos rfl)
  · exact List.filterMap_cons_none (if_neg (Ne.symm hk))

/-- An element that is under one key only is taken from there. -/
theorem under_remove (hkey : ∀ n ∈ p.present, n.1 = element → n.2.1 = key) (k : κ) :
    ({ p with present := p.present.filter (·.1 ≠ element) } : Recorded κ ν).under k =
      if k = key then (p.under key).filter (·.1 ≠ element) else p.under k := by
  have hfilter : ({ p with present := p.present.filter (·.1 ≠ element) } : Recorded κ ν).under k =
      (p.under k).filter (·.1 ≠ element) := by
    rw [under, under, List.filterMap_filter, List.filter_filterMap]
    refine List.filterMap_congr fun n _ ↦ ?_
    by_cases hn : n.2.1 = k <;> by_cases hr : n.1 = element <;> simp [hn, hr, Option.filter]
  rw [hfilter]
  split_ifs with hk
  · rw [hk]
  · refine List.filter_eq_self.2 fun n hn ↦ decide_eq_true fun hr ↦ hk ?_
    exact hkey _ (mem_under.1 hn) hr

/-- Nothing is left under the key, and the other keys are as they were. -/
theorem under_eraseKey (p : Recorded κ ν) (key k : κ) :
    (p.record (.eraseKey key)).under k = if k = key then [] else p.under k := by
  show ({ p with present := p.present.filter (·.2.1 ≠ key) } : Recorded κ ν).under k = _
  split_ifs with hk
  · refine List.eq_nil_iff_forall_not_mem.2 fun n hn ↦ ?_
    have hmem := mem_under.1 hn
    rw [List.mem_filter, hk, decide_eq_true_iff] at hmem
    exact hmem.2 rfl
  · rw [under, under, List.filterMap_filter]
    refine List.filterMap_congr fun n _ ↦ ?_
    by_cases hn : n.2.1 = k <;> simp [hn, hk]

end Recorded

namespace RaiiMap

/-- The source goes wrong exactly if the element is not in the list of the key. -/
theorem erase_eq_none_iff : s.erase key element = none ↔
    element ∉ ((s.map key).getD []).map Prod.fst := by
  rw [erase]
  cases hlist : s.map key with
  | none => simp
  | some list => simp

/-- The map after an element has been erased. -/
theorem erase_spec (h : s.erase key element = some s') :
    s'.elements = s.elements ∧ s'.constructed = s.constructed ∧
      (∀ k, (s'.map k).getD [] =
        if k = key then ((s.map key).getD []).filter (·.1 ≠ element) else (s.map k).getD []) ∧
      ∀ k, s'.map k = some [] → s.map k = some [] := by
  rw [erase] at h
  split at h
  · cases h
  rename_i list hlist
  obtain ⟨-, h⟩ := Option.ite_none_right_eq_some.1 h
  obtain rfl := Option.some.inj h
  refine ⟨rfl, rfl, fun k ↦ ?_, fun k hk ↦ ?_⟩
  · show (Function.update s.map key _ k).getD [] = _
    rw [Function.update_apply, hlist]
    split_ifs with hkey hempty
    · exact (List.isEmpty_iff.1 hempty).symm
    · rfl
    · rfl
  · have hupdate : Function.update s.map key _ k = some [] := hk
    rw [Function.update_apply] at hupdate
    split_ifs at hupdate with hkey hempty
    · exact absurd (List.isEmpty_iff.2 (Option.some.inj hupdate)) hempty
    · exact hupdate

/-- A destructor is the end of its wrapper only. -/
theorem elements_destruct {r : ℕ} {e : RaiiMapOfListElement κ}
    (h : step (.destruct element) s = some s')
    (he : s'.elements r = some e) : r ≠ element ∧ s.elements r = some e := by
  have helements : s'.elements = Function.update s.elements element none := by
    rw [step] at h
    split at h
    · cases h
    dsimp only at h
    split_ifs at h
    · obtain rfl := Option.some.inj h
      rfl
    · exact (erase_spec h).1
  rw [helements, Function.update_apply] at he
  split_ifs at he with hr
  exact ⟨hr, he⟩

/-- The map holds what it should, and a wrapper that lives knows where its element is. -/
structure Inv (p : Recorded κ ν) (s : RaiiMap κ ν) : Prop where
  /-- Under each key there is what was recorded, a missing list being an empty one. -/
  map_eq : ∀ k, (s.map k).getD [] = p.under k
  /-- The elements are those of wrappers made so far. -/
  lt : ∀ n ∈ p.present, n.1 < s.constructed
  /-- So are the wrappers that were cancelled. -/
  cancelled_lt : ∀ r ∈ p.cancelled, r < s.constructed
  /-- An element is under one key. -/
  key_eq : ∀ n ∈ p.present, ∀ m ∈ p.present, n.1 = m.1 → n.2.1 = m.2.1
  /-- A wrapper that lives has been made, is cancelled if `cancel` was called, and has the key of
  its element. -/
  element : ∀ r e, s.elements r = some e →
    r < s.constructed ∧ (e.cancelled = true ↔ r ∈ p.cancelled) ∧
      ∀ n ∈ p.present, n.1 = r → n.2.1 = e.key

/-- Nothing has happened yet. -/
theorem inv_init : ({} : RaiiMap κ ν).Inv {} :=
  ⟨fun _ ↦ rfl, fun _ h ↦ absurd h List.not_mem_nil, fun _ h ↦ absurd h List.not_mem_nil,
    fun _ h ↦ absurd h List.not_mem_nil, fun _ _ h ↦ absurd h.symm (Option.some_ne_none _)⟩

/-- What is less than before is still in place. -/
theorem Inv.mono {p' : Recorded κ ν} (hs : s.Inv p) (hpresent : p'.present ⊆ p.present)
    (hcancelled : p'.cancelled = p.cancelled) (hconstructed : s'.constructed = s.constructed)
    (helements : ∀ r e, s'.elements r = some e → s.elements r = some e)
    (hmap : ∀ k, (s'.map k).getD [] = p'.under k) : s'.Inv p' where
  map_eq := hmap
  lt n hn := hconstructed ▸ hs.lt n (hpresent hn)
  cancelled_lt r hr := hconstructed ▸ hs.cancelled_lt r (hcancelled ▸ hr)
  key_eq n hn m hm := hs.key_eq n (hpresent hn) m (hpresent hm)
  element r e he := by
    obtain ⟨hlt, hiff, hkey⟩ := hs.element r e (helements r e he)
    exact ⟨hconstructed ▸ hlt, hcancelled ▸ hiff, fun n hn ↦ hkey n (hpresent hn)⟩

/-- A call does to the map what is recorded of it. -/
theorem Inv.step {a : RaiiCall κ ν} (hs : s.Inv p) (h : step a s = some s') :
    s'.Inv (p.record a) := by
  cases a with
  | construct r k v =>
    obtain ⟨rfl, h⟩ := Option.ite_none_right_eq_some.1 h
    obtain rfl := Option.some.inj h
    have hne {n : ℕ × κ × ν} (hn : n ∈ p.present) : n.1 ≠ s.constructed := Nat.ne_of_lt (hs.lt n hn)
    refine ⟨fun k' ↦ ?_, fun n hn ↦ ?_, fun r hr ↦ Nat.lt_succ_of_lt (hs.cancelled_lt r hr),
      fun n hn m hm heq ↦ ?_, fun r e he ↦ ?_⟩
    · rw [Recorded.under_construct]
      show (Function.update s.map k _ k').getD [] = _
      rw [Function.update_apply]
      split_ifs with hk
      · exact congrArg _ (hs.map_eq k)
      · exact hs.map_eq k'
    · rcases List.mem_cons.1 hn with rfl | hn
      · exact Nat.lt_succ_self _
      · exact Nat.lt_succ_of_lt (hs.lt n hn)
    · rcases List.mem_cons.1 hn with rfl | hn <;> rcases List.mem_cons.1 hm with rfl | hm
      · rfl
      · exact absurd heq.symm (hne hm)
      · exact absurd heq (hne hn)
      · exact hs.key_eq n hn m hm heq
    · have hupdate : Function.update s.elements s.constructed (some { key := k }) r = some e := he
      rw [Function.update_apply] at hupdate
      split_ifs at hupdate with hr
      · obtain rfl := Option.some.inj hupdate
        subst hr
        refine ⟨Nat.lt_succ_self _, iff_of_false Bool.false_ne_true fun hr ↦ ?_, fun n hn heq ↦ ?_⟩
        · exact absurd (hs.cancelled_lt _ hr) (Nat.lt_irrefl _)
        · rcases List.mem_cons.1 hn with rfl | hn
          · rfl
          · exact absurd heq (hne hn)
      · obtain ⟨hlt, hiff, hkey⟩ := hs.element r e hupdate
        refine ⟨Nat.lt_succ_of_lt hlt, hiff, fun n hn heq ↦ ?_⟩
        rcases List.mem_cons.1 hn with rfl | hn
        · exact absurd heq.symm hr
        · exact hkey n hn heq
  | cancel r =>
    obtain ⟨e, he, rfl⟩ := Option.map_eq_some_iff.1 h
    obtain ⟨hlt, -, hkey⟩ := hs.element r e he
    refine ⟨hs.map_eq, hs.lt, List.forall_mem_cons.2 ⟨hlt, hs.cancelled_lt⟩, hs.key_eq,
      fun r' e' he' ↦ ?_⟩
    have hupdate : Function.update s.elements r (some { e with cancelled := true }) r' = some e' :=
      he'
    rw [Function.update_apply] at hupdate
    split_ifs at hupdate with hr
    · obtain rfl := Option.some.inj hupdate
      subst hr
      exact ⟨hlt, iff_of_true rfl List.mem_cons_self, hkey⟩
    · obtain ⟨hlt', hiff', hkey'⟩ := hs.element r' e' hupdate
      exact ⟨hlt', hiff'.trans (List.mem_cons.trans (or_iff_right hr)).symm, hkey'⟩
  | destruct r =>
    have helements (r' : ℕ) (e' : RaiiMapOfListElement κ) (he : s'.elements r' = some e') :
        s.elements r' = some e' :=
      (elements_destruct h he).2
    rw [RaiiMap.step] at h
    split at h
    · cases h
    rename_i e he
    obtain ⟨-, hiff, hkey⟩ := hs.element r e he
    dsimp only at h
    rw [Recorded.record]
    split_ifs at h with hcancelled
    · obtain rfl := Option.some.inj h
      rw [if_pos (hiff.1 hcancelled)]
      exact hs.mono (List.Subset.refl _) rfl rfl helements hs.map_eq
    · obtain ⟨-, hconstructed, hmap, -⟩ := erase_spec h
      rw [if_neg (hiff.not.1 hcancelled)]
      refine hs.mono (List.filter_subset_self _) rfl hconstructed helements fun k ↦ ?_
      rw [hmap, Recorded.under_remove hkey]
      simp only [hs.map_eq]
  | eraseNode k r =>
    rw [RaiiMap.step] at h
    split at h
    · cases h
    rename_i list hlist
    obtain ⟨hmem, h⟩ := Option.ite_none_right_eq_some.1 h
    obtain rfl := Option.some.inj h
    have hunder : p.under k = list := by rw [← hs.map_eq, hlist, Option.getD_some]
    obtain ⟨n, hn, rfl⟩ := List.mem_map.1 hmem
    have hpresent := Recorded.mem_under.1 (hunder ▸ hn)
    refine hs.mono (List.filter_subset_self _) rfl rfl (fun _ _ h ↦ h) fun k' ↦ ?_
    rw [Recorded.record, Recorded.under_remove fun m hm heq ↦ hs.key_eq m hm _ hpresent heq]
    show (Function.update s.map k _ k').getD [] = _
    rw [Function.update_apply, hunder]
    split_ifs with hk
    · rfl
    · exact hs.map_eq k'
  | eraseKey k =>
    obtain rfl := Option.some.inj h
    refine hs.mono (List.filter_subset_self _) rfl rfl (fun _ _ h ↦ h) fun k' ↦ ?_
    rw [Recorded.under_eraseKey]
    show (Function.update s.map k none k').getD [] = _
    rw [Function.update_apply]
    split_ifs with hk
    · rfl
    · exact hs.map_eq k'

/-- The run lemma for the invariant. -/
theorem inv_of_run {as : List (RaiiCall κ ν)} (hrun : run step as {} = some s) :
    s.Inv (recorded as) := by
  refine run_induction (P := fun as s ↦ s.Inv (recorded as)) inv_init (fun as a s s' _ hs h ↦ ?_)
    hrun
  rw [recorded, List.foldl_append]
  exact hs.step h

/-! ### Where nobody interferes

An element leaves its list behind the wrapper's back only by the two calls that are not those of a
wrapper. In runs without them no destructor goes wrong and no list stays empty.
-/

/-- An update by a list that is not empty leaves no empty list where there was none. -/
theorem forall_update {map : κ → Option (List (ℕ × ν))} {entry : Option (List (ℕ × ν))}
    (hmap : ∀ k, map k ≠ some []) (hentry : entry ≠ some []) (k : κ) :
    Function.update map key entry k ≠ some [] := by
  rw [Function.update_apply]
  split_ifs
  · exact hentry
  · exact hmap k

/-- Only the owner of the map leaves an empty list in it. -/
theorem ne_nil_step {a : RaiiCall κ ν} (hs : ∀ k, s.map k ≠ some [])
    (ha : ∀ k r, a ≠ .eraseNode k r)
    (h : step a s = some s') (k : κ) : s'.map k ≠ some [] := by
  cases a with
  | construct r k' v =>
    obtain ⟨-, h⟩ := Option.ite_none_right_eq_some.1 h
    obtain rfl := Option.some.inj h
    exact forall_update hs (fun heq ↦ List.cons_ne_nil _ _ (Option.some.inj heq)) k
  | cancel r =>
    obtain ⟨-, -, rfl⟩ := Option.map_eq_some_iff.1 h
    exact hs k
  | destruct r =>
    rw [step] at h
    split at h
    · cases h
    dsimp only at h
    split_ifs at h
    · obtain rfl := Option.some.inj h
      exact hs k
    · obtain ⟨-, -, -, hnil⟩ := erase_spec h
      exact fun heq ↦ hs k (hnil k heq)
  | eraseNode k' r => exact absurd rfl (ha k' r)
  | eraseKey k' =>
    obtain rfl := Option.some.inj h
    exact forall_update hs (Option.some_ne_none _).symm k

/-- The wrappers that live and are not cancelled have their elements in place. -/
def InPlace (p : Recorded κ ν) (s : RaiiMap κ ν) : Prop :=
  ∀ r e, s.elements r = some e → e.cancelled = false → ∃ n ∈ p.present, n.1 = r

/-- Without interference every wrapper still finds its element after a step. -/
theorem inPlace_step {a : RaiiCall κ ν} (hs : s.InPlace p) (hnode : ∀ k r, a ≠ .eraseNode k r)
    (hkey : ∀ k, a ≠ .eraseKey k) (h : step a s = some s') : s'.InPlace (p.record a) := by
  intro r e he hcancelled
  cases a with
  | construct r' k v =>
    obtain ⟨rfl, h⟩ := Option.ite_none_right_eq_some.1 h
    obtain rfl := Option.some.inj h
    have hupdate : Function.update s.elements s.constructed (some { key := k }) r = some e := he
    rw [Function.update_apply] at hupdate
    split_ifs at hupdate with hr
    · exact ⟨_, List.mem_cons_self, hr.symm⟩
    · obtain ⟨n, hn, heq⟩ := hs r e hupdate hcancelled
      exact ⟨n, List.mem_cons_of_mem _ hn, heq⟩
  | cancel r' =>
    obtain ⟨e', -, rfl⟩ := Option.map_eq_some_iff.1 h
    have hupdate : Function.update s.elements r' (some { e' with cancelled := true }) r = some e :=
      he
    rw [Function.update_apply] at hupdate
    split_ifs at hupdate
    · obtain rfl := Option.some.inj hupdate
      exact absurd hcancelled.symm Bool.false_ne_true
    · exact hs r e hupdate hcancelled
  | destruct r' =>
    obtain ⟨hr, he⟩ := elements_destruct h he
    obtain ⟨n, hn, heq⟩ := hs r e he hcancelled
    rw [Recorded.record]
    split_ifs
    · exact ⟨n, hn, heq⟩
    · exact ⟨n, List.mem_filter.2 ⟨hn, decide_eq_true fun h ↦ hr (heq.symm.trans h)⟩, heq⟩
  | eraseNode k' r' => exact absurd rfl (hnode k' r')
  | eraseKey k' => exact absurd rfl (hkey k')

/-- What a destructor does not survive. -/
theorem destruct_eq_none_iff {e : RaiiMapOfListElement κ} (hs : s.Inv p)
    (he : s.elements element = some e) :
    step (.destruct element) s = none ↔ element ∉ p.cancelled ∧ ∀ n ∈ p.present, n.1 ≠ element := by
  obtain ⟨-, hiff, hkey⟩ := hs.element element e he
  rw [step, he]
  dsimp only
  rw [← hiff]
  split_ifs with hcancelled
  · exact iff_of_false not_false fun h ↦ absurd hcancelled h.1
  · rw [erase_eq_none_iff]
    show element ∉ ((s.map e.key).getD []).map Prod.fst ↔ _
    rw [hs.map_eq, and_iff_right hcancelled]
    constructor
    · intro hmem n hn heq
      have hunder : (n.1, n.2.2) ∈ p.under e.key := Recorded.mem_under.2 (hkey n hn heq ▸ hn)
      exact hmem (List.mem_map.2 ⟨_, hunder, heq⟩)
    · intro hall hmem
      obtain ⟨n, hn, heq⟩ := List.mem_map.1 hmem
      exact hall _ (Recorded.mem_under.1 hn) heq

/-- And so after every run. -/
theorem inPlace_of_run {as : List (RaiiCall κ ν)} (hrun : run step as {} = some s)
    (hnode : ∀ k r, .eraseNode k r ∉ as) (hkey : ∀ k, .eraseKey k ∉ as) :
    s.InPlace (recorded as) := by
  refine run_induction (P := fun as s ↦ (∀ a ∈ as, (∀ k r, a ≠ .eraseNode k r) ∧
    ∀ k, a ≠ .eraseKey k) →
    s.InPlace (recorded as)) (fun _ _ _ h ↦ absurd h.symm (Option.some_ne_none _))
    (fun as a s s' _ ih h has ↦ ?_) hrun fun a ha ↦
      ⟨fun k r heq ↦ hnode k r (heq ▸ ha), fun k heq ↦ hkey k (heq ▸ ha)⟩
  obtain ⟨hnode, hkey⟩ := has a List.mem_concat_self
  rw [recorded, List.foldl_append]
  exact inPlace_step (ih fun b hb ↦ has b (List.mem_append_left _ hb)) hnode hkey h

/-- Whatever the order in which the wrappers go: the map has the elements it should, without an
empty list where nobody else erases from the lists, and a destructor goes wrong exactly where the
element has gone before it and nobody has cancelled the wrapper. That is nowhere where only the
wrappers take elements out. -/
theorem raii_map_correct {as : List (RaiiCall κ ν)} (hrun : run step as {} = some s) :
    (∀ k, (s.map k).getD [] = (recorded as).under k) ∧
      ((∀ k r, .eraseNode k r ∉ as) → ∀ k, s.map k = none ↔ (recorded as).under k = []) ∧
      (∀ r e, s.elements r = some e → (step (.destruct r) s = none ↔
        r ∉ (recorded as).cancelled ∧ ∀ n ∈ (recorded as).present, n.1 ≠ r)) ∧
      ((∀ k r, .eraseNode k r ∉ as) → (∀ k, .eraseKey k ∉ as) → ∀ r e, s.elements r = some e →
        step (.destruct r) s ≠ none) := by
  have hs := inv_of_run hrun
  refine ⟨hs.map_eq, fun hnode k ↦ ?_, fun r e he ↦ destruct_eq_none_iff hs he,
    fun hnode hkey r e he hnone ↦ ?_⟩
  · have hnil : s.map k ≠ some [] :=
      invariant_of_run_of_forall (I := fun s : RaiiMap κ ν ↦ ∀ k, s.map k ≠ some [])
        (P := fun a : RaiiCall κ ν ↦ ∀ k r, a ≠ .eraseNode k r)
        (fun a s s' hs ha h ↦ ne_nil_step hs ha h) hrun
        (fun _ ↦ (Option.some_ne_none _).symm) (fun a ha k r heq ↦ hnode k r (heq ▸ ha)) k
    rw [← hs.map_eq]
    cases hlist : s.map k with
    | none => exact iff_of_true rfl rfl
    | some list =>
      refine iff_of_false (Option.some_ne_none _) fun heq ↦ hnil ?_
      rw [hlist, ← heq, Option.getD_some]
  · obtain ⟨hcancelled, hgone⟩ := (destruct_eq_none_iff hs he).1 hnone
    have hfalse : e.cancelled = false :=
      Bool.eq_false_iff.2 fun heq ↦ hcancelled ((hs.element r e he).2.1.1 heq)
    obtain ⟨n, hn, heq⟩ := inPlace_of_run hrun hnode hkey r e he hfalse
    exact hgone n hn heq

/-- Two elements under one key, of which the older goes, and one under another key, which is erased
from the map before its wrapper goes. -/
def erasedKey : List (RaiiCall Bool ℕ) :=
  [.construct 0 false 7, .construct 1 false 8, .destruct 0, .construct 2 true 9, .eraseKey true]

/-- Under the first key the newer element is left, and under the second nothing; the wrapper of the
erased element has a destructor that goes wrong. -/
theorem raii_map_correct_erasedKey :
    ∃ s, run step erasedKey {} = some s ∧ (∀ k, (s.map k).getD [] = if k = false then [(1, 8)]
      else []) ∧
      step (.destruct 2) s = none := by
  have hrun : run step erasedKey {} = some _ := rfl
  refine ⟨_, hrun, fun k ↦ ?_, ?_⟩
  · rw [(raii_map_correct hrun).1 k]
    revert k
    decide
  · exact ((raii_map_correct hrun).2.2.1 2 { key := true } rfl).2 (by decide)

end RaiiMap

end TcpServer.Common
