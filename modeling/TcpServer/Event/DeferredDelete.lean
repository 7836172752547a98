import TcpServer.Event.Dispatcher

/-!
# Deferred deletion

Two vectors swap roles. `current_to_delete_` takes what `deferredDelete` is given; a pass of
`clearDeferredDeleteList` makes the other one current and walks the one that was. Destructors run in
the middle of the walk and may hand over new objects or ask for another pass, so the invariant has
to say where each vector stands while a pass is under way: the walked one is a run of null pointers
followed by what is still to be destroyed, the current one has no null pointer, and outside a pass
the vector that is not current is empty.

The wake-up is armed when the current vector goes from empty to one element and at no other time.
`DeferredInv.armed` is why that is enough: the flag is only cleared on the way into
`clearDeferredDeleteList`, and a swap always brings up an empty vector.

Every action that is not part of the mechanism keeps what the invariant mentions (`deferred_frame`),
so its step lemma has a case for each of the others and one for all the rest (`deferredInv_step`).
The order of destruction is read off the invariant: what was handed over is what
was destroyed, what the walk has still to destroy, and what the current vector holds.
-/

namespace TcpServer.Event

open Machine Dispatcher

variable {ι : Type*}

/-- The actions of `deferredDelete` and of the passes, wherever they are started from. -/
def Action.isDeferred : Action ι → Bool
  | .deferredDelete _ | .clearDeferredDeleteList | .passReset | .passEnd | .postClear
  | .deferredFire | .deferredClear => true
  | _ => false

namespace Dispatcher

/-- A vector that was put back. -/
@[simp] theorem vec_setVec_self (s : Dispatcher ι) (b : Bool) (v : List (Option ℕ)) :
    (s.setVec b v).vec b = v := by
  cases b <;> rfl

/-- The other vector is as it was. -/
@[simp] theorem vec_setVec_not (s : Dispatcher ι) (b : Bool) (v : List (Option ℕ)) :
    (s.setVec b v).vec (!b) = s.vec (!b) := by
  cases b <;> rfl

/-- How far the walk of a pass has come: `index` null pointers, then the rest of the vector. -/
structure WalkAt (v : List (Option ℕ)) (p : Pass) (rest : List ℕ) : Prop where
  /-- The vector is null pointers and then the objects of the rest. -/
  vec : v = List.replicate p.index none ++ rest.map some
  /-- The number that the walk was started with counts both. -/
  size : p.numToDelete = p.index + rest.length

/-- The invariant of the two vectors. -/
structure DeferredInv (s : Dispatcher ι) : Prop where
  /-- What was handed over is what was destroyed, then the walked vector, then the current one. -/
  fifo : s.handed =
    s.destroyed ++ (s.vec (!s.currentFirst)).reduceOption ++ (s.vec s.currentFirst).reduceOption
  /-- Outside a pass the flag is off and the other vector is empty. -/
  outside : s.pass = none → s.deferredDeleting = false ∧ s.vec (!s.currentFirst) = []
  /-- In a pass the flag is on and the walk goes through the other vector. -/
  inside : ∀ p, s.pass = some p →
    s.deferredDeleting = true ∧ p.first = !s.currentFirst ∧ ∃ rest, WalkAt (s.vec p.first) p rest
  /-- No null pointer in the current vector. -/
  current : none ∉ s.vec s.currentFirst
  /-- While something waits in the current vector, the callback is pending or about to run. -/
  armed : s.vec s.currentFirst ≠ [] →
    s.deferredDeleteCb.pending = true ∨ s.loop = .deferredEntered

/-- Nothing that the invariant of the two vectors mentions differs between `s` and `s'`. -/
structure DeferredFrame (s s' : Dispatcher ι) : Prop where
  /-- Both vectors. -/
  vec : s'.vec = s.vec
  /-- Which of them is current. -/
  currentFirst : s'.currentFirst = s.currentFirst
  /-- The flag `deferred_deleting_`. -/
  deferredDeleting : s'.deferredDeleting = s.deferredDeleting
  /-- The callback of the deletion. -/
  deferredDeleteCb : s'.deferredDeleteCb = s.deferredDeleteCb
  /-- The pass under way. -/
  pass : s'.pass = s.pass
  /-- What has been handed over. -/
  handed : s'.handed = s.handed
  /-- What has been destroyed. -/
  destroyed : s'.destroyed = s.destroyed
  /-- Whether the loop is on its way into `clearDeferredDeleteList`; it may be getting there. -/
  loop : s.loop = .deferredEntered → s'.loop = .deferredEntered

/-- The invariant is about these members only. -/
theorem DeferredInv.of_frame {s s' : Dispatcher ι} (hs : s.DeferredInv) (h : DeferredFrame s s') :
    s'.DeferredInv where
  fifo := by rw [h.handed, h.destroyed, h.vec, h.currentFirst, hs.fifo]
  outside := by
    rw [h.pass, h.deferredDeleting, h.vec, h.currentFirst]
    exact hs.outside
  inside := by
    rw [h.pass, h.deferredDeleting, h.vec, h.currentFirst]
    exact hs.inside
  current := by
    rw [h.vec, h.currentFirst]
    exact hs.current
  armed hne := by
    rw [h.vec, h.currentFirst] at hne
    rw [h.deferredDeleteCb]
    exact (hs.armed hne).imp_right h.loop

/-- At the beginning both vectors are empty. -/
theorem deferredInv_init : ({} : Dispatcher ι).DeferredInv where
  fifo := rfl
  outside _ := ⟨rfl, rfl⟩
  inside _ h := nomatch h
  current := List.not_mem_nil
  armed h := absurd rfl h

section Walk

variable {v : List (Option ℕ)} {p : Pass} {rest : List ℕ}

/-- The objects in a vector that is walked are those still to be destroyed. -/
theorem WalkAt.reduceOption (h : WalkAt v p rest) : v.reduceOption = rest := by
  rw [h.vec, List.reduceOption_append, List.reduceOption_replicate_none, List.nil_append]
  simp [List.reduceOption]

/-- A vector with no null pointer is one that a walk may start on. -/
theorem exists_walkAt (hv : none ∉ v) (first : Bool) :
    ∃ rest, WalkAt v ⟨first, 0, v.length⟩ rest := by
  have hmap : ∃ rest : List ℕ, v = rest.map some := by
    induction v with
    | nil => exact ⟨[], rfl⟩
    | cons o v ih =>
      rw [List.mem_cons, not_or] at hv
      obtain ⟨a, rfl⟩ := Option.ne_none_iff_exists'.1 (Ne.symm hv.1)
      obtain ⟨rest, rfl⟩ := ih hv.2
      exact ⟨a :: rest, rfl⟩
  obtain ⟨rest, rfl⟩ := hmap
  exact ⟨rest, rfl, by simp⟩

/-- A turn of the loop destroys the next object and leaves one more null pointer. -/
theorem WalkAt.reset {o : ℕ} (h : WalkAt v p (o :: rest)) :
    v[p.index]? = some (some o) ∧ WalkAt (v.set p.index none) { p with index := p.index + 1 }
      rest := by
  have hlen : (List.replicate p.index (none : Option ℕ)).length = p.index := List.length_replicate
  refine ⟨?_, ?_, ?_⟩
  · rw [h.vec, List.getElem?_append_right (Nat.le_of_eq hlen), hlen, Nat.sub_self]
    rfl
  · rw [h.vec, List.set_append_right _ _ (Nat.le_of_eq hlen), hlen, Nat.sub_self,
      List.replicate_succ', List.append_assoc]
    rfl
  · have := h.size
    simp only [List.length_cons] at this
    simp only
    omega

end Walk

variable [DecidableEq ι]

/-- **Every action outside the mechanism leaves it alone.** -/
theorem deferred_frame {a : Action ι} {s s' : Dispatcher ι} (ha : a.isDeferred = false)
    (h : dispatcherStep a s = some s') : DeferredFrame s s' := by
  cases a <;> simp only [Action.isDeferred, reduceCtorEq] at ha <;>
    simp only [dispatcherStep, Option.ite_none_right_eq_some, Option.some.injEq] at h
  case postAppend t cb =>
    obtain ⟨-, rfl⟩ := h
    exact ⟨rfl, rfl, rfl, rfl, rfl, rfl, rfl, id⟩
  case deleteAppend t d =>
    obtain ⟨-, rfl⟩ := h
    exact ⟨rfl, rfl, rfl, rfl, rfl, rfl, rfl, id⟩
  case postSchedule | deleteSchedule =>
    split at h
    · exact Option.some.inj h ▸ ⟨rfl, rfl, rfl, rfl, rfl, rfl, rfl, id⟩
    · cases h
  case postFire | threadLocalFire =>
    obtain ⟨⟨-, hloop⟩, h⟩ := h
    obtain ⟨cb, -, rfl⟩ := Option.map_eq_some_iff.1 h
    exact ⟨rfl, rfl, rfl, rfl, rfl, rfl, rfl, by simp [hloop]⟩
  case postExecute | threadLocalPop | shutdownPop =>
    split at h
    · rename_i hloop
      obtain ⟨-, rfl⟩ := by simpa using h
      exact ⟨rfl, rfl, rfl, rfl, rfl, rfl, rfl, by simp [hloop]⟩
    · cases h
  case run | postTake | postReturn | threadLocalTake | threadLocalReturn | shutdown | shutdownTake
      | shutdownReturn =>
    obtain ⟨⟨-, hloop⟩, rfl⟩ := h
    exact ⟨rfl, rfl, rfl, rfl, rfl, rfl, rfl, by simp [hloop]⟩

/-! ### The actions of the mechanism

The actions that touch the vectors: handing an object over, entering the function, destroying the
next object, and the end of a pass. The first two may happen inside a pass as well.
-/

omit [DecidableEq ι]

/-- An object that is handed over goes behind those that wait. -/
theorem deferredInv_deferredDelete {s : Dispatcher ι} (hs : s.DeferredInv) (o : Option ℕ) :
    (s.deferredDelete o).DeferredInv := by
  cases o with
  | none => exact hs
  | some o =>
    set v := s.vec s.currentFirst ++ [some o] with hv
    have hself : (s.deferredDelete (some o)).vec s.currentFirst = v := vec_setVec_self ..
    have hnot : (s.deferredDelete (some o)).vec (!s.currentFirst) = s.vec (!s.currentFirst) :=
      vec_setVec_not ..
    refine ⟨?_, fun hp ↦ ⟨(hs.outside hp).1, hnot.trans (hs.outside hp).2⟩, fun p hp ↦ ?_, ?_,
      fun _ ↦ ?_⟩
    · show s.handed ++ [o] =
        s.destroyed ++ ((s.deferredDelete (some o)).vec (!s.currentFirst)).reduceOption ++
          ((s.deferredDelete (some o)).vec s.currentFirst).reduceOption
      rw [hself, hnot, hs.fifo, hv, List.reduceOption_append, ← List.append_assoc]
      rfl
    · obtain ⟨hdel, hfirst, rest, hwalk⟩ := hs.inside p hp
      refine ⟨hdel, hfirst, rest, ?_⟩
      rw [hfirst] at hwalk ⊢
      exact hnot.symm ▸ hwalk
    · show none ∉ (s.deferredDelete (some o)).vec s.currentFirst
      rw [hself, hv]
      simpa using hs.current
    · show (if v.length = 1 then _ else _ : SchedulableCallback).pending = true ∨ _
      split
      · exact Or.inl (by simp)
      · rename_i hlen
        exact hs.armed fun hnil ↦ hlen (by simp [hv, hnil])

/-- Entering `clearDeferredDeleteList` keeps the invariant, and either returns at once or starts a
pass with an empty current vector. -/
theorem deferredInv_clear {s : Dispatcher ι} (hs : s.DeferredInv) :
    (s.clearDeferredDeleteList).DeferredInv ∧
      (s.pass = none → (s.clearDeferredDeleteList).vec (s.clearDeferredDeleteList).currentFirst =
        []) := by
  unfold clearDeferredDeleteList
  simp only
  split
  · rename_i hret
    refine ⟨hs, fun hp ↦ ?_⟩
    simpa [(hs.outside hp).1] using hret
  · rename_i hgo
    obtain ⟨hdel, hlen⟩ : s.deferredDeleting = false ∧ s.vec s.currentFirst ≠ [] := by
      simpa using hgo
    have hp : s.pass = none := by
      rcases hp : s.pass with - | p
      · rfl
      · simp [(hs.inside p hp).1] at hdel
    have hother : s.vec (!s.currentFirst) = [] := (hs.outside hp).2
    refine ⟨⟨?_, fun h ↦ (nomatch h), fun p h ↦ ?_, ?_, fun h ↦ absurd hother h⟩, fun _ ↦ hother⟩
    · show s.handed = s.destroyed ++ (s.vec (!!s.currentFirst)).reduceOption ++
        (s.vec (!s.currentFirst)).reduceOption
      rw [hs.fifo, hother, Bool.not_not]
      simp
    · obtain rfl := Option.some.inj h
      exact ⟨rfl, (Bool.not_not _).symm, exists_walkAt hs.current _⟩
    · show none ∉ s.vec (!s.currentFirst)
      simp [hother]

/-- A destructor runs and leaves a null pointer where its object was. -/
theorem deferredInv_passReset {s : Dispatcher ι} (hs : s.DeferredInv) {p : Pass}
    (hp : s.pass = some p) (hlt : p.index < p.numToDelete) : (s.passReset p).DeferredInv := by
  obtain ⟨hdel, hfirst, rest, hwalk⟩ := hs.inside p hp
  obtain - | ⟨o, rest⟩ := rest
  · have := hwalk.size
    simp at this
    omega
  obtain ⟨hget, hnext⟩ := hwalk.reset
  set v := (s.vec p.first).set p.index none with hv
  have hself : (s.passReset p).vec p.first = v := vec_setVec_self ..
  have hcur : (s.passReset p).vec s.currentFirst = s.vec s.currentFirst := by
    have : s.currentFirst = !p.first := by simp [hfirst]
    rw [this]
    exact vec_setVec_not ..
  refine ⟨?_, fun h ↦ (nomatch h), fun q hq ↦ ?_, ?_, fun h ↦ ?_⟩
  · show s.handed = (s.destroyed ++ _) ++ ((s.passReset p).vec (!s.currentFirst)).reduceOption ++
      ((s.passReset p).vec s.currentFirst).reduceOption
    rw [hcur, ← hfirst, hself, hget, hs.fifo, ← hfirst, hwalk.reduceOption, hnext.reduceOption]
    simp
  · obtain rfl := Option.some.inj hq
    exact ⟨hdel, hfirst, rest, hself.symm ▸ hnext⟩
  · show none ∉ (s.passReset p).vec s.currentFirst
    exact hcur.symm ▸ hs.current
  · exact hs.armed (hcur ▸ h)

/-- At its end the pass clears its vector and the flag. -/
theorem deferredInv_passEnd {s : Dispatcher ι} (hs : s.DeferredInv) {p : Pass}
    (hp : s.pass = some p) (heq : p.index = p.numToDelete) : (s.passEnd p).DeferredInv := by
  obtain ⟨hdel, hfirst, rest, hwalk⟩ := hs.inside p hp
  obtain rfl : rest = [] := List.length_eq_zero_iff.1 (by have := hwalk.size; omega)
  have hself : (s.passEnd p).vec p.first = [] := vec_setVec_self ..
  have hcur : (s.passEnd p).vec s.currentFirst = s.vec s.currentFirst := by
    have : s.currentFirst = !p.first := by simp [hfirst]
    rw [this]
    exact vec_setVec_not ..
  refine ⟨?_, fun _ ↦ ⟨rfl, ?_⟩, fun q hq ↦ (nomatch hq), ?_, fun h ↦ ?_⟩
  · show s.handed = (s.destroyed ++ _) ++ ((s.passEnd p).vec (!s.currentFirst)).reduceOption ++
      ((s.passEnd p).vec s.currentFirst).reduceOption
    rw [hcur, ← hfirst, hself, hs.fifo, ← hfirst]
    simp
  · show (s.passEnd p).vec (!s.currentFirst) = []
    rw [← hfirst, hself]
  · show none ∉ (s.passEnd p).vec s.currentFirst
    exact hcur.symm ▸ hs.current
  · exact hs.armed (hcur ▸ h)

/-- A pass that is under way is not entered again: `clearDeferredDeleteList` returns at once. -/
theorem clearDeferredDeleteList_of_pass {s : Dispatcher ι} (hs : s.DeferredInv) {p : Pass}
    (hp : s.pass = some p) : s.clearDeferredDeleteList = s := by
  simp [clearDeferredDeleteList, (hs.inside p hp).1]

/-- A loop that is ready is in no pass. -/
theorem pass_eq_none_of_loopReady {s : Dispatcher ι} (h : s.loopReady) : s.pass = none := by
  simp only [loopReady, Bool.and_eq_true, Option.isNone_iff_eq_none] at h
  exact h.1

variable [DecidableEq ι]

/-- **Every step keeps the invariant.** -/
theorem deferredInv_step {a : Action ι} {s s' : Dispatcher ι} (hs : s.DeferredInv)
    (h : dispatcherStep a s = some s') : s'.DeferredInv := by
  rcases ha : a.isDeferred with - | -
  · exact hs.of_frame (deferred_frame ha h)
  cases a <;> simp only [Action.isDeferred, reduceCtorEq] at ha <;>
    simp only [dispatcherStep, Option.ite_none_right_eq_some, Option.some.injEq] at h
  case deferredDelete o =>
    obtain ⟨-, rfl⟩ := h
    exact deferredInv_deferredDelete hs o
  case clearDeferredDeleteList =>
    obtain ⟨-, rfl⟩ := h
    exact (deferredInv_clear hs).1
  case passReset =>
    split at h
    · rename_i p hp
      obtain ⟨⟨hlt, -⟩, rfl⟩ := by simpa using h
      exact deferredInv_passReset hs hp hlt
    · cases h
  case passEnd =>
    split at h
    · rename_i p hp
      obtain ⟨⟨heq, -⟩, rfl⟩ := by simpa using h
      exact deferredInv_passEnd hs hp heq
    · cases h
  case postClear =>
    obtain ⟨⟨hready, -⟩, rfl⟩ := h
    -- the loop is in no pass, so the clear leaves nothing in the current vector
    obtain ⟨hc, hcur⟩ := deferredInv_clear hs
    have hcur := hcur (pass_eq_none_of_loopReady hready)
    exact ⟨hc.fifo, hc.outside, hc.inside, hc.current, fun hne ↦ absurd hcur hne⟩
  case deferredFire =>
    obtain ⟨-, h⟩ := h
    obtain ⟨cb, -, rfl⟩ := Option.map_eq_some_iff.1 h
    exact ⟨hs.fifo, hs.outside, hs.inside, hs.current, fun _ ↦ Or.inr rfl⟩
  case deferredClear =>
    obtain ⟨⟨hready, -⟩, rfl⟩ := h
    obtain ⟨hc, hcur⟩ := deferredInv_clear hs
    have hcur := hcur (pass_eq_none_of_loopReady hready)
    exact ⟨hc.fifo, hc.outside, hc.inside, hc.current, fun hne ↦ absurd hcur hne⟩

/-- The invariant of every reachable state. -/
theorem deferredInv_of_reachable {s : Dispatcher ι} (hs : Reachable dispatcherStep {} s) :
    s.DeferredInv :=
  invariant_of_reachable deferredInv_init (fun _ _ _ ↦ deferredInv_step) hs

/-- While a pass walks a vector, only the walk itself changes the vector or the pass. -/
theorem walk_undisturbed {a : Action ι} {s s' : Dispatcher ι} (hs : s.DeferredInv) {p : Pass}
    (hp : s.pass = some p) (h : dispatcherStep a s = some s') (hreset : a ≠ .passReset)
    (hend : a ≠ .passEnd) : s'.pass = some p ∧ s'.vec p.first = s.vec p.first := by
  rcases ha : a.isDeferred with - | -
  · have hf := deferred_frame ha h
    exact ⟨hf.pass.trans hp, by rw [hf.vec]⟩
  cases a <;> simp only [Action.isDeferred, reduceCtorEq] at ha <;>
    simp only [dispatcherStep, Option.ite_none_right_eq_some, Option.some.injEq] at h
  case deferredDelete o =>
    obtain ⟨-, rfl⟩ := h
    cases o with
    | none => exact ⟨hp, rfl⟩
    | some o =>
      refine ⟨hp, ?_⟩
      rw [(hs.inside p hp).2.1]
      exact vec_setVec_not ..
  case clearDeferredDeleteList =>
    obtain ⟨-, rfl⟩ := h
    rw [clearDeferredDeleteList_of_pass hs hp]
    exact ⟨hp, rfl⟩
  case passReset => exact absurd rfl hreset
  case passEnd => exact absurd rfl hend
  case postClear | deferredFire | deferredClear =>
    have hnone := pass_eq_none_of_loopReady h.1.1
    simp [hp] at hnone

end Dispatcher

/-- **Deferred deletion destroys each object exactly once, in order.** In every state reached by any
sequence of calls, firings and destructor actions: what has been destroyed, what the walk has still
to destroy and what the current vector holds are together what was handed over, in that order; no
step but the walk's own touches the vector being walked or the walk's position; outside a pass the
flag is down and the vector that is not current is empty; and a non-empty current vector has its
callback pending or just being entered. -/
theorem deferred_deletion_exactly_once [DecidableEq ι] {s : Dispatcher ι}
    (hs : Reachable dispatcherStep {} s) :
    s.handed =
        s.destroyed ++ (s.vec (!s.currentFirst)).reduceOption ++
          (s.vec s.currentFirst).reduceOption ∧
      s.destroyed <+: s.handed ∧
      (∀ p, s.pass = some p → ∀ a s', dispatcherStep a s = some s' →
        a ≠ .passReset → a ≠ .passEnd → s'.pass = some p ∧ s'.vec p.first = s.vec p.first) ∧
      (s.pass = none → s.deferredDeleting = false ∧ s.vec (!s.currentFirst) = []) ∧
      (s.vec s.currentFirst ≠ [] →
        s.deferredDeleteCb.pending = true ∨ s.loop = .deferredEntered) := by
  have hinv := deferredInv_of_reachable hs
  refine ⟨hinv.fifo, ?_, fun p hp a s' h ↦ walk_undisturbed hinv hp h, hinv.outside, hinv.armed⟩
  rw [hinv.fifo, List.append_assoc]
  exact List.prefix_append _ _

/-- A pass over one object whose destructor hands over a second one and asks for another pass. -/
def reentrantPass : List (Action Empty) :=
  [.deferredDelete (some 0), .deferredFire, .deferredClear, .passReset, .deferredDelete (some 1),
    .clearDeferredDeleteList, .passEnd]

/-- The second object waits in the current vector, and the callback is pending. -/
theorem deferred_deletion_exactly_once_reentrantPass :
    ∃ s, Machine.run dispatcherStep reentrantPass {} = some s ∧
      s.destroyed = [0] ∧ s.vec s.currentFirst = [some 1] ∧
      (s.deferredDeleteCb.pending = true ∨ s.loop = .deferredEntered) :=
  ⟨_, rfl, rfl, rfl, (deferred_deletion_exactly_once ⟨reentrantPass, rfl⟩).2.2.2.2 (by decide)⟩

end TcpServer.Event
