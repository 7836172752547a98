import TcpServer.Event.DeferredDelete

/-!
# Deferred deletion comes before the posted callbacks

`runPostCallbacks` clears the deferred deletion list before it takes the callbacks it will run. The
clear only starts a pass, and destructors of that pass may hand over new objects, post, and ask for
more; what counts is that the loop cannot take the callbacks in the middle of a pass. What the
passes have taken only grows (`taken_prefix_step`), and with the clear it is everything that was
handed over before.

The statement is about the time from one action of the loop to another, with anything in between:
calls from other threads, destructors that hand over more, passes that start and end. It therefore
rests on something that no step takes back, the list of what the passes have taken, and on the fact
that outside a pass everything taken is destroyed (`DeferredInv.taken_eq`).
-/

namespace TcpServer.Event

open Machine Dispatcher

variable {ι : Type*}

namespace Dispatcher

/-- What the passes have taken: the objects destroyed, and those that the pass under way will
destroy. -/
def taken (s : Dispatcher ι) : List ℕ := s.destroyed ++ (s.vec (!s.currentFirst)).reduceOption

/-- What was handed over is what was taken, and then what waits in the current vector. -/
theorem DeferredInv.handed_eq {s : Dispatcher ι} (hs : s.DeferredInv) :
    s.handed = s.taken ++ (s.vec s.currentFirst).reduceOption := hs.fifo

/-- Outside a pass everything taken is destroyed. -/
theorem DeferredInv.taken_eq {s : Dispatcher ι} (hs : s.DeferredInv) (hpass : s.pass = none) :
    s.taken = s.destroyed := by
  rw [taken, (hs.outside hpass).2]
  exact List.append_nil _

/-- A clear that starts a pass, or finds nothing to do, leaves nothing behind. -/
theorem DeferredInv.taken_clear {s : Dispatcher ι} (hs : s.DeferredInv) (hpass : s.pass = none) :
    s.clearDeferredDeleteList.taken = s.handed := by
  obtain ⟨hclear, hcurrent⟩ := deferredInv_clear hs
  have hhanded : s.clearDeferredDeleteList.handed = s.handed := by
    obtain ⟨_, _, _, heq⟩ := s.clearDeferredDeleteList_frame
    rw [heq]
  rw [← hhanded, hclear.handed_eq, hcurrent hpass]
  exact (List.append_nil _).symm

theorem DeferredInv.taken_prefix_handed {s : Dispatcher ι} (hs : s.DeferredInv) :
    s.taken <+: s.handed := hs.handed_eq ▸ List.prefix_append _ _

variable [DecidableEq ι]

/-- What a pass walks only moves to what is destroyed, and a new pass takes more. -/
theorem taken_prefix_step {a : Action ι} {s s' : Dispatcher ι} (hs : s.DeferredInv)
    (h : dispatcherStep a s = some s') : s.taken <+: s'.taken := by
  have hs' : s'.DeferredInv := deferredInv_step hs h
  -- where the current vector and the objects handed over are the same, so is what was taken
  have hsame : s'.handed = s.handed → s'.vec s'.currentFirst = s.vec s.currentFirst →
      s.taken <+: s'.taken := by
    intro hhanded hcurrent
    have heq : s.taken = s'.taken := by
      rw [hs.handed_eq, hs'.handed_eq, hcurrent] at hhanded
      exact (List.append_cancel_right hhanded).symm
    exact heq ▸ List.prefix_rfl
  rcases ha : a.isDeferred with - | -
  · have hf := deferred_frame ha h
    exact hsame hf.handed (by rw [hf.vec, hf.currentFirst])
  cases a <;> simp only [Action.isDeferred, reduceCtorEq] at ha <;>
    simp only [dispatcherStep, Option.ite_none_right_eq_some, Option.some.injEq] at h
  case deferredDelete o =>
    obtain ⟨-, rfl⟩ := h
    cases o with
    | none => exact List.prefix_rfl
    | some o =>
      have hother : (s.deferredDelete (some o)).vec (!s.currentFirst) = s.vec (!s.currentFirst) :=
        vec_setVec_not ..
      have heq : (s.deferredDelete (some o)).taken = s.taken := by
        show s.destroyed ++ ((s.deferredDelete (some o)).vec (!s.currentFirst)).reduceOption =
          s.taken
        rw [hother, taken]
      exact heq ▸ List.prefix_rfl
  case clearDeferredDeleteList =>
    obtain ⟨-, rfl⟩ := h
    cases hpass : s.pass with
    | none => exact hs.taken_clear hpass ▸ hs.taken_prefix_handed
    | some p =>
      simpa only [clearDeferredDeleteList_of_pass hs hpass] using List.prefix_refl s.taken
  case passReset | passEnd =>
    split at h
    · rename_i p hp
      obtain ⟨-, rfl⟩ := by simpa using h
      have hfirst : s.currentFirst = !p.first := by
        rw [(hs.inside p hp).2.1, Bool.not_not]
      refine hsame rfl ?_
      show Dispatcher.vec _ s.currentFirst = s.vec s.currentFirst
      rw [hfirst]
      exact vec_setVec_not ..
    · cases h
  case postClear | deferredClear =>
    obtain ⟨⟨hready, -⟩, rfl⟩ := h
    have hclear := hs.taken_clear (pass_eq_none_of_loopReady hready)
    show s.taken <+: s.clearDeferredDeleteList.taken
    exact hclear ▸ hs.taken_prefix_handed
  case deferredFire =>
    obtain ⟨-, h⟩ := h
    obtain ⟨cb, -, rfl⟩ := Option.map_eq_some_iff.1 h
    exact List.prefix_rfl

/-- The run lemma for what is taken. -/
theorem taken_prefix_run {as : List (Action ι)} {s s' : Dispatcher ι} (hs : s.DeferredInv)
    (h : Machine.run dispatcherStep as s = some s') : s'.DeferredInv ∧ s.taken <+: s'.taken :=
  invariant_of_run (I := fun t ↦ t.DeferredInv ∧ s.taken <+: t.taken)
    (fun _ _ _ ht h ↦ ⟨deferredInv_step ht.1 h, ht.2.trans (taken_prefix_step ht.1 h)⟩) h
    ⟨hs, List.prefix_rfl⟩

end Dispatcher

/-- **Deferred deletion comes before the posted callbacks.** Whatever happens between the clear of
`runPostCallbacks` and the next time callbacks are taken — destructors that hand over, post or
clear, and other threads that post — every object that had been handed over before the clear has
been destroyed when they are, in the order in which they were handed over. -/
theorem deferred_destroyed_before_batch [DecidableEq ι] {as bs : List (Action ι)}
    {s t : Dispatcher ι}
    (hbefore : Machine.run dispatcherStep as {} = some s)
    (hrun : Machine.run dispatcherStep (.postClear :: bs ++ [.postTake]) s = some t) :
    s.handed <+: t.destroyed := by
  have hs : s.DeferredInv := deferredInv_of_reachable ⟨as, hbefore⟩
  obtain ⟨s₂, hrun, htake⟩ := (run_append_eq_some_iff dispatcherStep).1 hrun
  obtain ⟨s₁, hclear, hbs⟩ := (run_cons_eq_some_iff dispatcherStep).1 hrun
  -- the clear takes everything that is there
  have hs₁ : s₁.DeferredInv := deferredInv_step hs hclear
  have htaken : s₁.taken = s.handed := by
    simp only [dispatcherStep, Option.ite_none_right_eq_some, Option.some.injEq] at hclear
    obtain ⟨⟨hready, -⟩, rfl⟩ := hclear
    exact hs.taken_clear (pass_eq_none_of_loopReady hready)
  obtain ⟨hs₂, hprefix⟩ := taken_prefix_run hs₁ hbs
  -- and the callbacks are not taken before its pass is over
  rw [run_singleton] at htake
  simp only [dispatcherStep, Option.ite_none_right_eq_some, Option.some.injEq] at htake
  obtain ⟨⟨hready, -⟩, rfl⟩ := htake
  show s.handed <+: s₂.destroyed
  rw [← hs₂.taken_eq (pass_eq_none_of_loopReady hready), ← htaken]
  exact hprefix

/-- An object is handed over and a callback is posted. -/
def handedAndPosted : List (Action Empty) :=
  [.deferredDelete (some 0), .postAppend none 7, .postSchedule none, .postFire]

/-- The destructor of the object hands over another one. -/
def handsOver : List (Action Empty) := [.passReset, .deferredDelete (some 1), .passEnd]

/-- The object handed over before the clear is destroyed when the batch is taken; the one that its
destructor has handed over still waits. -/
theorem deferred_destroyed_before_batch_handsOver : ∃ s t : Dispatcher Empty,
    Machine.run dispatcherStep handedAndPosted {} = some s ∧
    Machine.run dispatcherStep (.postClear :: handsOver ++ [.postTake]) s = some t ∧
    t.handed = [0, 1] ∧ t.destroyed = [0] ∧ t.batch = [7] ∧ s.handed <+: t.destroyed := by
  refine ⟨_, _, rfl, rfl, rfl, rfl, rfl, ?_⟩
  exact deferred_destroyed_before_batch
    (show Machine.run dispatcherStep handedAndPosted {} = some _ from rfl)
    (show Machine.run dispatcherStep (.postClear :: handsOver ++ [.postTake]) _ = some _ from rfl)

end TcpServer.Event
