import TcpServer.Lib.Keyed
import TcpServer.Lib.Machine
import TcpServer.Lib.Threads
import Mathlib.Data.List.FinRange

/-!
# The array of atomic pointers

`get` of a slot loads it, and only where the slot is null takes the mutex, loads it once more and
stores what `make_object` returns. Every load, store and lock operation of a thread is a step of its
own here, so a list of actions is an interleaving of the threads that call `get`. `make_object` may
return null; nothing is assumed of the pointers it returns.

The one mutex of the array guards the places from the second load to the unlocking
(`Inv.guards`), so nobody stores to a slot between the second load of a thread and its store, and a
slot that holds an object keeps it (`Step.slot_eq`). What has been made for a slot is what is
stored there, or about to be (`Inv.objects_eq`).

A call whose `make_object` has returned null leaves the slot null and returns null, and the next
call for the slot makes an object again. So what is promised is about the calls of `make_object`
that return an object: for each slot there is one at most (`MakesOnce`).
-/

namespace TcpServer.Thread

open Machine

/-- Who owns the objects: the array, which deletes them in its destructor, or nobody. -/
inductive AtomicPtrAllocMode
  | doNotDelete
  | deleteOnDestruct
deriving DecidableEq

/-- Where a thread is in `get`. -/
inductive Place (size : ℕ) (Ptr : Type*)
  | outside
  /-- Before the first load. -/
  | loading (index : Fin size)
  /-- The first load was null. -/
  | locking (index : Fin size)
  /-- It holds the mutex, before the second load. -/
  | checking (index : Fin size)
  /-- The second load was null. -/
  | making (index : Fin size)
  | storing (index : Fin size) (object : Option Ptr)
  | unlocking (index : Fin size)
  /-- Before the last load. -/
  | returning (index : Fin size)
deriving DecidableEq

/-- `made` and `returned` are the history: what `make_object` returned, for which slot, and what
`get` returned, to whom and for which slot. -/
structure AtomicPtrArray (τ Ptr : Type*) (size : ℕ) where
  /-- The slots, of which null ones hold nothing. -/
  data : Fin size → Option Ptr := fun _ ↦ none
  /-- The thread that has the mutex, if one has. -/
  mutex : Option τ := none
  /-- Where each thread is. -/
  place : τ → Place size Ptr := fun _ ↦ .outside
  /-- What `make_object` has returned, and for which slot. -/
  made : List (Fin size × Option Ptr) := []
  /-- What `get` has returned, to which thread and for which slot. -/
  returned : List (τ × Fin size × Option Ptr) := []

/-- What a thread does: it calls `get`, goes on in it, or has `make_object` return. -/
inductive GetAction (τ Ptr : Type*) (size : ℕ)
  | get (thread : τ) (index : Fin size)
  /-- The thread takes its next step, other than the call of `make_object`. -/
  | proceed (thread : τ)
  | makeObject (thread : τ) (object : Option Ptr)

/-- The places at which a thread has the mutex. -/
def Place.critical {size : ℕ} {Ptr : Type*} : Place size Ptr → Bool
  | .checking _ | .making _ | .storing _ _ | .unlocking _ => true
  | _ => false

/-- The thread has done what there was to do for the slot, and has yet to load it. -/
def Place.Leaving {size : ℕ} {Ptr : Type*} (index : Fin size) : Place size Ptr → Prop
  | .unlocking i | .returning i => i = index
  | _ => False

/-- The steps a thread has ahead of it, at most. -/
def Place.ahead {size : ℕ} {Ptr : Type*} : Place size Ptr → ℕ
  | .outside => 0
  | .returning _ => 1
  | .unlocking _ => 2
  | .storing _ _ => 3
  | .making _ => 4
  | .checking _ => 5
  | .locking _ => 6
  | .loading _ => 7

/-- A step of a call that is under way, not a new call. -/
def GetAction.Continues {τ Ptr : Type*} {size : ℕ} : GetAction τ Ptr size → Prop
  | .get _ _ => False
  | .proceed _ | .makeObject _ _ => True

namespace AtomicPtrArray

variable {τ Ptr : Type*} [DecidableEq τ] {size : ℕ}

/-- The thread goes to another place. -/
def move (s : AtomicPtrArray τ Ptr size) (t : τ) (p : Place size Ptr) : AtomicPtrArray τ Ptr size :=
  { s with place := Function.update s.place t p }

/-- One step of a thread. -/
def step (a : GetAction τ Ptr size) (s : AtomicPtrArray τ Ptr size) :
    Option (AtomicPtrArray τ Ptr size) :=
  match a with
  | .get t index =>
    match s.place t with
    | .outside => some (s.move t (.loading index))
    | _ => none
  | .makeObject t object =>
    match s.place t with
    | .making index =>
      some ({ s with made := s.made ++ [(index, object)] }.move t (.storing index object))
    | _ => none
  | .proceed t =>
    match s.place t with
    | .loading index =>
      match s.data index with
      | none => some (s.move t (.locking index))
      | some _ => some (s.move t (.returning index))
    | .locking index =>
      match s.mutex with
      | none => some ({ s with mutex := some t }.move t (.checking index))
      | some _ => none
    | .checking index =>
      match s.data index with
      | none => some (s.move t (.making index))
      | some _ => some (s.move t (.unlocking index))
    | .storing index object =>
      some ({ s with data := Function.update s.data index object }.move t (.unlocking index))
    | .unlocking index => some ({ s with mutex := none }.move t (.returning index))
    | .returning index =>
      some ({ s with returned := s.returned ++ [(t, index, s.data index)] }.move t .outside)
    | .outside | .making _ => none

/-- What the destructor deletes, in the order of the slots. -/
def destruct (allocMode : AtomicPtrAllocMode) (s : AtomicPtrArray τ Ptr size) : List Ptr :=
  match allocMode with
  | .deleteOnDestruct => (List.finRange size).filterMap s.data
  | .doNotDelete => []

/-- The objects that were made for a slot, in order. -/
def objects (s : AtomicPtrArray τ Ptr size) (index : Fin size) : List Ptr :=
  (s.made.filter (·.1 = index)).filterMap Prod.snd

/-! ### Steps

A step moves one thread from a place to the next. Where it changes the mutex, a slot or the history,
it does so for the slot of its call.
-/

/-- What a step can do. -/
inductive Step (s : AtomicPtrArray τ Ptr size) :
    GetAction τ Ptr size → AtomicPtrArray τ Ptr size → Prop
  | get {t index} (hplace : s.place t = .outside) :
      Step s (.get t index) (s.move t (.loading index))
  | absent {t index} (hplace : s.place t = .loading index) (hdata : s.data index = none) :
    Step s (.proceed t) (s.move t (.locking index))
  | present {t index p} (hplace : s.place t = .loading index) (hdata : s.data index = some p) :
    Step s (.proceed t) (s.move t (.returning index))
  | lock {t index} (hplace : s.place t = .locking index) (hmutex : s.mutex = none) :
    Step s (.proceed t) ({ s with mutex := some t }.move t (.checking index))
  | stillAbsent {t index} (hplace : s.place t = .checking index) (hdata : s.data index = none) :
    Step s (.proceed t) (s.move t (.making index))
  | nowPresent {t index p} (hplace : s.place t = .checking index) (hdata : s.data index = some p) :
    Step s (.proceed t) (s.move t (.unlocking index))
  | makeObject {t index object} (hplace : s.place t = .making index) :
    Step s (.makeObject t object) ({ s with made := s.made ++ [(index, object)] }.move t
      (.storing index object))
  | store {t index object} (hplace : s.place t = .storing index object) :
    Step s (.proceed t) ({ s with data := Function.update s.data index object }.move t
      (.unlocking index))
  | unlock {t index} (hplace : s.place t = .unlocking index) :
    Step s (.proceed t) ({ s with mutex := none }.move t (.returning index))
  | return {t index} (hplace : s.place t = .returning index) :
    Step s (.proceed t) ({ s with returned := s.returned ++ [(t, index, s.data index)] }.move t
      .outside)

variable {s s' : AtomicPtrArray τ Ptr size} {a : GetAction τ Ptr size}

/-- Every step is one of these. -/
theorem Step.of_step (h : step a s = some s') : Step s a s' := by
  cases a with
  | get t index =>
    simp only [step] at h
    split at h
    · exact Option.some.inj h ▸ .get ‹_›
    · simp at h
  | makeObject t object =>
    simp only [step] at h
    split at h
    · exact Option.some.inj h ▸ .makeObject ‹_›
    · simp at h
  | proceed t =>
    simp only [step] at h
    split at h
    · split at h
      · exact Option.some.inj h ▸ .absent ‹_› ‹_›
      · exact Option.some.inj h ▸ .present ‹_› ‹_›
    · split at h
      · exact Option.some.inj h ▸ .lock ‹_› ‹_›
      · simp at h
    · split at h
      · exact Option.some.inj h ▸ .stillAbsent ‹_› ‹_›
      · exact Option.some.inj h ▸ .nowPresent ‹_› ‹_›
    · exact Option.some.inj h ▸ .store ‹_›
    · exact Option.some.inj h ▸ .unlock ‹_›
    · exact Option.some.inj h ▸ .return ‹_›
    · simp at h
    · simp at h

@[simp] theorem move_data (t : τ) (p : Place size Ptr) : (s.move t p).data = s.data := rfl

@[simp] theorem move_mutex (t : τ) (p : Place size Ptr) : (s.move t p).mutex = s.mutex := rfl

@[simp] theorem move_made (t : τ) (p : Place size Ptr) : (s.move t p).made = s.made := rfl

@[simp] theorem move_returned (t : τ) (p : Place size Ptr) : (s.move t p).returned = s.returned :=
  rfl

@[simp] theorem move_objects (t : τ) (p : Place size Ptr) : (s.move t p).objects = s.objects := rfl

/-- A move changes the place of one thread. -/
theorem move_place (t : τ) (p : Place size Ptr) :
    (s.move t p).place = Function.update s.place t p := rfl

/-- Where a thread is after a move: at the new place, or where it was. -/
theorem at_move_cases (At : Place size Ptr → Prop) {t u : τ} {p : Place size Ptr}
    (h : At ((s.move t p).place u)) : u = t ∧ At p ∨ u ≠ t ∧ At (s.place u) := by
  rw [move_place] at h
  by_cases hu : u = t
  · subst hu
    exact .inl ⟨rfl, by rwa [Function.update_self] at h⟩
  · exact .inr ⟨hu, by rwa [Function.update_of_ne hu] at h⟩

/-- Who is at a place after a move was there before, or has moved there. -/
theorem place_move_cases {t u : τ} {p q : Place size Ptr} (h : (s.move t p).place u = q) :
    u = t ∧ p = q ∨ u ≠ t ∧ s.place u = q :=
  at_move_cases (· = q) h

omit [DecidableEq τ] in
/-- A call of `make_object` adds its object to those of the slot. -/
theorem objects_made (index i : Fin size) (object : Option Ptr) :
    { s with made := s.made ++ [(index, object)] }.objects i =
      s.objects i ++ if index = i then object.toList else [] := by
  rw [objects, List.filter_append, List.filterMap_append]
  by_cases hi : index = i
  · cases object <;> simp [hi, objects]
  · simp [hi, objects]

/-! ### The invariant

Between the second load and the store of a thread the slot is null, and nobody else may store. So
what was made for a slot is what is in it, but for the moment before the store.
-/

/-- What holds in every state. -/
structure Inv (s : AtomicPtrArray τ Ptr size) : Prop where
  /-- The mutex is held by the thread at a critical place. -/
  guards : Threads.Guards (fun p : Place size Ptr ↦ p.critical = true) s.place s.mutex
  /-- A slot is null while its object is being made. -/
  making : ∀ t index, s.place t = .making index → s.data index = none
  /-- It is still null, and nothing else was made for it, while the object is about to be stored. -/
  storing : ∀ t index object, s.place t = .storing index object →
    s.data index = none ∧ s.objects index = object.toList ∧ (index, object) ∈ s.made
  /-- Otherwise what was made for a slot is what it holds. -/
  objects_eq : ∀ index, (∀ t object, s.place t ≠ .storing index object) →
    s.objects index = (s.data index).toList
  /-- A slot that is null when a thread leaves it has had a null object made for it. -/
  null : ∀ t index, (s.place t).Leaving index → s.data index = none → (index, none) ∈ s.made
  /-- What was returned is what the slot holds, or null if that was made for it. -/
  returned : ∀ t index object, (t, index, object) ∈ s.returned →
    (∀ p, object = some p → s.data index = some p) ∧ (object = none → (index, none) ∈ s.made)

omit [DecidableEq τ] in
/-- Only one thread is at a critical place. -/
theorem Inv.unique (hs : s.Inv) {t u : τ} (ht : (s.place t).critical = true)
    (hu : (s.place u).critical = true) : u = t :=
  hs.guards.unique hu ht

/-- A step leaves the mutex with the thread at a critical place. -/
theorem Inv.guards_step (hs : s.Inv) (h : Step s a s') :
    Threads.Guards (fun p : Place size Ptr ↦ p.critical = true) s'.place s'.mutex := by
  cases h with
  | get hplace => exact hs.guards.move (by simp [hplace, Place.critical])
  | absent hplace => exact hs.guards.move (by simp [hplace, Place.critical])
  | present hplace => exact hs.guards.move (by simp [hplace, Place.critical])
  | lock hplace hmutex =>
    have hfree := hs.guards
    rw [hmutex] at hfree
    exact hfree.acquire (by simp [Place.critical])
  | stillAbsent hplace => exact hs.guards.move (by simp [hplace, Place.critical])
  | nowPresent hplace => exact hs.guards.move (by simp [hplace, Place.critical])
  | makeObject hplace => exact hs.guards.move (by simp [hplace, Place.critical])
  | store hplace => exact hs.guards.move (by simp [hplace, Place.critical])
  | unlock hplace =>
    exact hs.guards.release (by simp [hplace, Place.critical]) (by simp [Place.critical])
  | «return» hplace => exact hs.guards.move (by simp [hplace, Place.critical])

/-- A slot that holds an object keeps it. -/
theorem Inv.slot_step (hs : s.Inv) (h : Step s a s') {index : Fin size} {p : Ptr}
    (hdata : s.data index = some p) : s'.data index = some p := by
  cases h with
  | @store t i object hplace =>
    have hi : index ≠ i := by
      rintro rfl
      rw [(hs.storing t index object hplace).1] at hdata
      simp at hdata
    simp only [move_data]
    rw [Function.update_of_ne hi, hdata]
  | _ => exact hdata

/-- What was made stays so. -/
theorem Step.made_subset (h : Step s a s') : s.made ⊆ s'.made := by
  cases h with
  | makeObject hplace => exact List.subset_append_left _ _
  | _ => exact List.Subset.refl _

theorem Inv.making_step (hs : s.Inv) (h : Step s a s') {u : τ} {i : Fin size}
    (hu : s'.place u = .making i) : s'.data i = none := by
  cases h with
  | stillAbsent hplace hdata =>
    rcases place_move_cases hu with ⟨-, heq⟩ | ⟨-, hu⟩
    · rw [← Place.making.inj heq, move_data, hdata]
    · exact hs.making u i hu
  | store hplace =>
    rcases place_move_cases hu with ⟨-, heq⟩ | ⟨hne, hu⟩
    · simp at heq
    · exact absurd (hs.unique (by rw [hplace]; rfl) (by rw [hu]; rfl)) hne
  | _ =>
    rcases place_move_cases hu with ⟨-, heq⟩ | ⟨-, hu⟩
    · simp at heq
    · exact hs.making u i hu

omit [DecidableEq τ] in
/-- While a thread is about to call `make_object` nobody stores. -/
theorem Inv.not_storing (hs : s.Inv) {t : τ} {index : Fin size} (ht : s.place t = .making index)
    (u : τ) (i : Fin size) (object : Option Ptr) : s.place u ≠ .storing i object := by
  intro hu
  have heq : u = t := hs.unique (by rw [ht]; rfl) (by rw [hu]; rfl)
  rw [heq, ht] at hu
  simp at hu

theorem Inv.storing_step (hs : s.Inv) (h : Step s a s') {u : τ} {i : Fin size} {object : Option Ptr}
    (hu : s'.place u = .storing i object) :
    s'.data i = none ∧ s'.objects i = object.toList ∧ (i, object) ∈ s'.made := by
  cases h with
  | @makeObject t index made hplace =>
    rcases place_move_cases hu with ⟨-, heq⟩ | ⟨-, hu⟩
    · obtain ⟨rfl, rfl⟩ := Place.storing.inj heq
      have hdata : s.data index = none := hs.making t index hplace
      have hbefore : s.objects index = [] := by
        rw [hs.objects_eq index fun v o ↦ hs.not_storing hplace v index o, hdata]
        rfl
      refine ⟨hdata, ?_, List.mem_append_right _ (List.mem_singleton_self _)⟩
      rw [move_objects, objects_made, hbefore, if_pos rfl, List.nil_append]
    · exact absurd hu (hs.not_storing hplace u i object)
  | store hplace =>
    rcases place_move_cases hu with ⟨-, heq⟩ | ⟨hne, hu⟩
    · simp at heq
    · exact absurd (hs.unique (by rw [hplace]; rfl) (by rw [hu]; rfl)) hne
  | _ =>
    rcases place_move_cases hu with ⟨-, heq⟩ | ⟨-, hu⟩
    · simp at heq
    · exact hs.storing u i object hu

/-- Nobody was about to store to a slot if nobody is, and the thread that moved was not. -/
theorem not_storing_of_move {t : τ} {p : Place size Ptr} {i : Fin size}
    (ht : ∀ object, s.place t ≠ .storing i object)
    (h : ∀ u object, (s.move t p).place u ≠ .storing i object) (u : τ) (object : Option Ptr) :
    s.place u ≠ .storing i object := by
  by_cases hu : u = t
  · exact hu ▸ ht object
  · have hmoved := h u object
    rwa [move_place, Function.update_of_ne hu] at hmoved

theorem Inv.objects_step (hs : s.Inv) (h : Step s a s') {i : Fin size}
    (hi : ∀ u object, s'.place u ≠ .storing i object) : s'.objects i = (s'.data i).toList := by
  cases h with
  | @makeObject t index object hplace =>
    have hne : index ≠ i := by
      rintro rfl
      exact hi t object (by rw [move_place, Function.update_self])
    rw [move_objects, objects_made, if_neg hne, List.append_nil, move_data]
    exact hs.objects_eq i fun u o ↦ hs.not_storing hplace u i o
  | @store t index object hplace =>
    rw [move_objects, move_data]
    by_cases hne : i = index
    · subst hne
      dsimp only
      rw [Function.update_self]
      exact (hs.storing t i object hplace).2.1
    · dsimp only
      rw [Function.update_of_ne hne]
      refine hs.objects_eq i (not_storing_of_move (fun o ho ↦ hne ?_) hi)
      exact (Place.storing.inj (ho.symm.trans hplace)).1
  | get hplace => exact hs.objects_eq i (not_storing_of_move (by simp [hplace]) hi)
  | absent hplace => exact hs.objects_eq i (not_storing_of_move (by simp [hplace]) hi)
  | present hplace => exact hs.objects_eq i (not_storing_of_move (by simp [hplace]) hi)
  | lock hplace => exact hs.objects_eq i (not_storing_of_move (by simp [hplace]) hi)
  | stillAbsent hplace => exact hs.objects_eq i (not_storing_of_move (by simp [hplace]) hi)
  | nowPresent hplace => exact hs.objects_eq i (not_storing_of_move (by simp [hplace]) hi)
  | unlock hplace => exact hs.objects_eq i (not_storing_of_move (by simp [hplace]) hi)
  | «return» hplace => exact hs.objects_eq i (not_storing_of_move (by simp [hplace]) hi)

/-- Where a slot is null after a store, it was null before, and so was what was stored if it was
stored there. -/
theorem update_eq_none {data : Fin size → Option Ptr} {index i : Fin size} {object : Option Ptr}
    (hdata : data index = none) (h : Function.update data index object i = none) :
    data i = none ∧ (i = index → object = none) := by
  by_cases hi : i = index
  · subst hi
    rw [Function.update_self] at h
    exact ⟨hdata, fun _ ↦ h⟩
  · rw [Function.update_of_ne hi] at h
    exact ⟨h, fun heq ↦ absurd heq hi⟩

theorem Inv.null_step (hs : s.Inv) (h : Step s a s') {u : τ} {i : Fin size}
    (hu : (s'.place u).Leaving i) (hnull : s'.data i = none) : (i, none) ∈ s'.made := by
  have hold : (s.place u).Leaving i → s.data i = none → (i, none) ∈ s'.made :=
    fun hplace hdata ↦ h.made_subset (hs.null u i hplace hdata)
  cases h with
  | @store t index object hplace =>
    obtain ⟨hdata, -, hmade⟩ := hs.storing t index object hplace
    obtain ⟨hi, hobject⟩ := update_eq_none hdata hnull
    rcases at_move_cases _ hu with ⟨-, heq⟩ | ⟨-, hu⟩
    · rw [hobject heq.symm] at hmade
      exact heq ▸ hmade
    · exact hold hu hi
  | @present t index p hplace hdata =>
    rcases at_move_cases _ hu with ⟨-, heq⟩ | ⟨-, hu⟩
    · rw [← show index = i from heq, move_data, hdata] at hnull
      simp at hnull
    · exact hold hu hnull
  | @nowPresent t index p hplace hdata =>
    rcases at_move_cases _ hu with ⟨-, heq⟩ | ⟨-, hu⟩
    · rw [← show index = i from heq, move_data, hdata] at hnull
      simp at hnull
    · exact hold hu hnull
  | @unlock t index hplace =>
    rcases at_move_cases _ hu with ⟨-, heq⟩ | ⟨-, hu⟩
    · exact hs.null t i (by rw [hplace]; exact heq) hnull
    · exact hold hu hnull
  | _ =>
    rcases at_move_cases _ hu with ⟨-, heq⟩ | ⟨-, hu⟩
    · exact absurd heq (by simp [Place.Leaving])
    · exact hold hu hnull

theorem Inv.returned_step (hs : s.Inv) (h : Step s a s') {u : τ} {i : Fin size}
    {object : Option Ptr} (hu : (u, i, object) ∈ s'.returned) :
    (∀ p, object = some p → s'.data i = some p) ∧ (object = none → (i, none) ∈ s'.made) := by
  have hold : (u, i, object) ∈ s.returned →
      (∀ p, object = some p → s'.data i = some p) ∧ (object = none → (i, none) ∈ s'.made) := by
    intro hmem
    obtain ⟨hsome, hnone⟩ := hs.returned u i object hmem
    exact ⟨fun p hp ↦ hs.slot_step h (hsome p hp), fun hnull ↦ h.made_subset (hnone hnull)⟩
  cases h with
  | @«return» t index hplace =>
    rcases List.mem_append.1 hu with hu | hu
    · exact hold hu
    · obtain ⟨rfl, rfl, rfl⟩ : u = t ∧ i = index ∧ object = s.data index := by simpa using hu
      exact ⟨fun p hp ↦ hp, hs.null u i (by rw [hplace]; exact rfl)⟩
  | _ => exact hold hu

/-- Every step keeps the invariant. -/
theorem Inv.step (hs : s.Inv) (h : Step s a s') : s'.Inv where
  guards := hs.guards_step h
  making _ _ := hs.making_step h
  storing _ _ _ := hs.storing_step h
  objects_eq _ := hs.objects_step h
  null _ _ := hs.null_step h
  returned _ _ _ := hs.returned_step h

omit [DecidableEq τ] in
theorem inv_empty : Inv ({} : AtomicPtrArray τ Ptr size) where
  guards t := by simp [Place.critical]
  making t index h := by simp at h
  storing t index object h := by simp at h
  objects_eq index _ := rfl
  null t index h := absurd h (by simp [Place.Leaving])
  returned t index object h := by simp at h

/-- The invariant holds in every state that a run reaches. -/
theorem Inv.of_reachable (h : Reachable AtomicPtrArray.step {} s) : s.Inv :=
  invariant_of_reachable inv_empty (fun _ _ _ hs hstep ↦ hs.step (.of_step hstep)) h

/-! ### The calls of `get`

Of the calls of `make_object` for a slot some may return null, in any number. One at most returns an
object, since that object is in the slot when the next thread gets the mutex.
-/

/-- What `get` promises of its slots. -/
structure MakesOnce (s : AtomicPtrArray τ Ptr size) : Prop where
  /-- One call of `make_object` for a slot at most returns an object. -/
  length_objects_le : ∀ index, (s.objects index).length ≤ 1
  /-- Whatever `get` returns is that object. -/
  returned_some : ∀ t index p, (t, index, some p) ∈ s.returned → s.objects index = [p]
  /-- It returns null only where `make_object` has. -/
  returned_none : ∀ t index, (t, index, none) ∈ s.returned → (index, none) ∈ s.made
  /-- `make_object` does not race against itself, for one slot or for two. -/
  exclusive : ∀ t u index i, s.place t = .making index → s.place u = .making i → t = u

omit [DecidableEq τ] in
/-- One object at most has been made for a slot. -/
theorem Inv.length_objects_le (hs : s.Inv) (index : Fin size) :
    (s.objects index).length ≤ 1 := by
  by_cases hstoring : ∃ t object, s.place t = .storing index object
  · obtain ⟨t, object, hplace⟩ := hstoring
    rw [(hs.storing t index object hplace).2.1]
    cases object <;> simp
  · rw [hs.objects_eq index fun t object hplace ↦ hstoring ⟨t, object, hplace⟩]
    cases s.data index <;> simp

omit [DecidableEq τ] in
/-- What is in a slot is what was made for it. -/
theorem Inv.objects_of_data (hs : s.Inv) {index : Fin size} {p : Ptr}
    (hdata : s.data index = some p) : s.objects index = [p] := by
  rw [hs.objects_eq index, hdata]
  · rfl
  · intro t object hplace
    rw [(hs.storing t index object hplace).1] at hdata
    simp at hdata

/-- In every interleaving of calls of `get`, at most one call of `make_object` for a slot returns an
object, and every call of `get` for the slot that returns an object returns this one. Calls of
`make_object` that return null may be repeated. -/
theorem get_makes_once {as : List (GetAction τ Ptr size)} (hrun : run step as {} = some s) :
    s.MakesOnce := by
  have hs : s.Inv := Inv.of_reachable ⟨as, hrun⟩
  refine ⟨hs.length_objects_le, fun t index p hmem ↦ ?_, fun t index hmem ↦ ?_,
    fun t u index i ht hu ↦ ?_⟩
  · exact hs.objects_of_data ((hs.returned t index (some p) hmem).1 p rfl)
  · exact (hs.returned t index none hmem).2 rfl
  · exact hs.unique (by rw [hu]; rfl) (by rw [ht]; rfl)

/-- Two threads load the one slot before either has the mutex. -/
def race : List (GetAction Bool ℕ 1) :=
  let slot := Fin.last 0
  [.get false slot, .get true slot, .proceed false, .proceed true, .proceed false, .proceed false,
    .makeObject false (some 7), .proceed false, .proceed false, .proceed true, .proceed true,
    .proceed true, .proceed true, .proceed false]

theorem get_makes_once_race : ∃ s : AtomicPtrArray Bool ℕ 1, run step race {} = some s ∧
    s.returned = [(true, Fin.last 0, some 7), (false, Fin.last 0, some 7)] ∧ s.MakesOnce :=
  ⟨_, rfl, rfl, get_makes_once (show run step race {} = some _ from rfl)⟩

/-! ### The destructor

The destructor deletes what is in the slots, if the array owns it. An object that was made for a
slot is in it when all calls have returned.
-/

/-- Outside of all calls the destructor deletes every object that was made, each as often as it was
made, or none. -/
theorem destruct_deletes_made {as : List (GetAction τ Ptr size)} (hrun : run step as {} = some s)
    (houtside : ∀ t, s.place t = .outside) (allocMode : AtomicPtrAllocMode) :
    (s.destruct allocMode).Perm
      (if allocMode = .deleteOnDestruct then s.made.filterMap Prod.snd else []) := by
  have hs : s.Inv := Inv.of_reachable ⟨as, hrun⟩
  have hslots (index : Fin size) : s.objects index = (s.data index).toList :=
    hs.objects_eq index fun t object hplace ↦ by simp [houtside t] at hplace
  match allocMode with
  | .doNotDelete => exact List.Perm.refl _
  | .deleteOnDestruct =>
    rw [if_pos rfl]
    refine List.Perm.symm ?_
    calc s.made.filterMap Prod.snd
      _ |>.Perm (((List.finRange size).flatMap fun index ↦ s.made.filter (·.1 = index)).filterMap
          Prod.snd) :=
        (Keyed.perm_flatMap_filter (List.nodup_finRange size) s.made
          fun _ _ ↦ List.mem_finRange _).filterMap _
      _ = (List.finRange size).flatMap s.objects := List.filterMap_flatMap
      _ = (List.finRange size).flatMap fun index ↦ (s.data index).toList :=
        List.flatMap_congr fun index _ ↦ hslots index
      _ = (List.finRange size).filterMap s.data := (List.filterMap_eq_flatMap_toList _ _).symm

theorem destruct_deletes_made_race : ∃ s : AtomicPtrArray Bool ℕ 1, run step race {} = some s ∧
    (s.destruct .deleteOnDestruct).Perm [7] := by
  refine ⟨_, rfl, ?_⟩
  exact destruct_deletes_made (show run step race {} = some _ from rfl) (by decide)
    .deleteOnDestruct

/-! ### No call hangs

A thread waits only for the mutex, and whoever has it is on its way to the unlocking. What
`make_object` does is one step here, so this is about calls in which it returns, and about those
that do not call `get` of the same array, which would wait for the mutex that its own thread has.
-/

variable [Fintype τ]

/-- The steps that the calls under way have left. -/
def work (s : AtomicPtrArray τ Ptr size) : ℕ := Threads.work Place.ahead s.place

theorem work_move (t : τ) (p : Place size Ptr) :
    (s.move t p).work + (s.place t).ahead = s.work + p.ahead :=
  Threads.work_update Place.ahead

theorem work_move_lt {t : τ} {p : Place size Ptr} (hplace : s'.place = s.place)
    (hp : p.ahead < (s.place t).ahead) : (s'.move t p).work < s.work := by
  have hmove : (s'.move t p).work + (s'.place t).ahead = s'.work + p.ahead := work_move t p
  have hwork : s'.work = s.work := by rw [work, work, hplace]
  rw [hplace, hwork] at hmove
  omega

/-- A step of a call under way is one less. -/
theorem work_step (h : Step s a s') (ha : a.Continues) : s'.work < s.work := by
  cases h with
  | get hplace => exact absurd ha (by simp [GetAction.Continues])
  | absent hplace => exact work_move_lt rfl (by simp [hplace, Place.ahead])
  | present hplace => exact work_move_lt rfl (by simp [hplace, Place.ahead])
  | lock hplace => exact work_move_lt rfl (by simp [hplace, Place.ahead])
  | stillAbsent hplace => exact work_move_lt rfl (by simp [hplace, Place.ahead])
  | nowPresent hplace => exact work_move_lt rfl (by simp [hplace, Place.ahead])
  | makeObject hplace => exact work_move_lt rfl (by simp [hplace, Place.ahead])
  | store hplace => exact work_move_lt rfl (by simp [hplace, Place.ahead])
  | unlock hplace => exact work_move_lt rfl (by simp [hplace, Place.ahead])
  | «return» hplace => exact work_move_lt rfl (by simp [hplace, Place.ahead])

omit [DecidableEq τ] in
/-- No call has more than seven steps. -/
theorem work_le (s : AtomicPtrArray τ Ptr size) : s.work ≤ 7 * Fintype.card τ :=
  Threads.work_le fun p ↦ by cases p <;> simp [Place.ahead]

omit [Fintype τ] in
/-- Where no call can go on there is none: the thread that holds the mutex always can, and where the
mutex is free all can. -/
theorem Inv.outside_of_stuck (hs : s.Inv)
    (hstuck : ∀ a : GetAction τ Ptr size, a.Continues → AtomicPtrArray.step a s = none) (t : τ) :
    s.place t = .outside := by
  have hproceed (u : τ) : AtomicPtrArray.step (.proceed u) s = none := hstuck _ trivial
  have hmake (u : τ) : AtomicPtrArray.step (.makeObject u none) s = none := hstuck _ trivial
  have hcritical (u : τ) : (s.place u).critical = false := by
    specialize hproceed u
    specialize hmake u
    cases hplace : s.place u with
    | checking index =>
      cases hdata : s.data index <;> simp [AtomicPtrArray.step, hplace, hdata] at hproceed
    | making index => simp [AtomicPtrArray.step, hplace] at hmake
    | storing index object => simp [AtomicPtrArray.step, hplace] at hproceed
    | unlocking index => simp [AtomicPtrArray.step, hplace] at hproceed
    | _ => rfl
  have hfree : s.mutex = none := hs.guards.free fun u ↦ by simp [hcritical u]
  have hnot : (s.place t).critical = false := hcritical t
  specialize hproceed t
  cases hplace : s.place t with
  | outside => rfl
  | loading index =>
    cases hdata : s.data index <;> simp [AtomicPtrArray.step, hplace, hdata] at hproceed
  | locking index => simp [AtomicPtrArray.step, hplace, hfree] at hproceed
  | returning index => simp [AtomicPtrArray.step, hplace] at hproceed
  | _ => simp [hplace, Place.critical] at hnot

/-- From wherever the threads are, calls that are under way return within seven steps each, whatever
the order of the steps, if `make_object` returns and does not call `get` of the same array. -/
theorem calls_return {as : List (GetAction τ Ptr size)} (hrun : run step as {} = some s) :
    Settles step GetAction.Continues (fun s' ↦ ∀ t, s'.place t = .outside) (7 * Fintype.card τ) s :=
  have hsettles : Settles step GetAction.Continues (fun s' ↦ ∀ t, s'.place t = .outside) s.work s :=
    settles_of_measure (P := GetAction.Continues) (fun _ _ _ hs _ h ↦ hs.step (.of_step h))
      (fun _ _ _ _ ha h ↦ work_step (.of_step h) ha) (fun _ hs hstuck ↦ hs.outside_of_stuck hstuck)
      (Inv.of_reachable ⟨as, hrun⟩)
  hsettles.mono s.work_le

/-- After the first of its steps the second thread waits for the mutex of the first. -/
theorem calls_return_race : ∃ s : AtomicPtrArray Bool ℕ 1, run step (race.take 5) {} = some s ∧
    step (.proceed true) s = none ∧
    Settles step GetAction.Continues (fun s' ↦ ∀ t, s'.place t = .outside) 14 s :=
  ⟨_, rfl, rfl, calls_return (show run step (race.take 5) {} = some _ from rfl)⟩

end AtomicPtrArray

end TcpServer.Thread
