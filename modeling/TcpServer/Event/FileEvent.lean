import TcpServer.Lib.Machine
import TcpServer.Event.SchedulableCb
import Mathlib.Data.List.DropRight

/-!
# Injected file events

A `FileEventImpl` has two sources of events for one callback: the fd, through libevent, and
`activate`, which collects bits in `injected_activation_events_` and arms `activation_cb_`. Either
source, when it fires, delivers its own bits together with everything injected so far and cancels
the other's hold on them; `setEnabled` throws the injected bits away.

What a user may rely on is a statement about the past and not about the fields, so it is stated over
the actions of the run: `owed as` is the union of the bits injected since the last invocation of the
callback or the last `setEnabled`. `injected_events_delivered_once` says that this is what the field
holds and what the next invocation adds to the fd's events. Every activation lies in exactly one
such stretch of the run, so its bits are delivered at most once.

The invariant `Owes` ties a state to the actions before it, and `Owes.step` is its step lemma. What
is delivered is a fact about one action after a run (`Owes.delivered_step`), so the theorem says it
of every run and every next action; that no invocation comes with an empty mask is a consequence for
the history.
-/

namespace TcpServer.Event

open Machine

/-- A set of `FileReadyType` events, as the `uint32_t` of the source. -/
abbrev EventMask := BitVec 32

namespace FileReadyType

/-- The fd has something to read. -/
def Read : EventMask := 0x1#32
/-- The fd can be written. -/
def Write : EventMask := 0x2#32
/-- The other side has closed. -/
def Closed : EventMask := 0x4#32

end FileReadyType

/-- How libevent reports an fd. Emulated edges are level events that are disabled as soon as they
were reported. -/
inductive FileTriggerType
  | level
  | edge
  | emulatedEdge
deriving DecidableEq

/-- The state of a `FileEventImpl`. `platformDefault` is the constant `PlatformDefaultTriggerType`.
`running` says that the user's callback is executing, and `delivered` is the history of the masks it
was called with. -/
structure FileEvent where
  /-- `PlatformDefaultTriggerType`. -/
  platformDefault : FileTriggerType
  /-- `trigger_`. -/
  trigger : FileTriggerType
  /-- `enabled_events_`. -/
  enabledEvents : EventMask
  /-- `injected_activation_events_`. -/
  injectedActivationEvents : EventMask := 0#32
  /-- `activation_cb_`. -/
  activationCb : SchedulableCallback := {}
  /-- Whether the user's callback is executing. -/
  running : Bool := false
  /-- The masks that the callback was invoked with. -/
  delivered : List EventMask := []
deriving DecidableEq

/-- What can happen to a file event: calls of its user, which the callback may make as well, and the
firings of its two libevent events, with what the fd is ready for. -/
inductive FileAction
  | activate (events : EventMask)
  | setEnabled (events : EventMask)
  | fdReady (read write closed : Bool)
  | activationFire
  | callbackReturn
deriving DecidableEq

namespace FileEvent

/-- A new file event, as the constructor leaves it. -/
def create (platformDefault trigger : FileTriggerType) (events : EventMask) : FileEvent :=
  { platformDefault, trigger, enabledEvents := events }

/-- Arms the callback if no bit is injected yet, then merges the new ones. -/
def activate (s : FileEvent) (events : EventMask) : FileEvent :=
  { s with
    activationCb :=
      if s.injectedActivationEvents = 0#32 then s.activationCb.scheduleCallbackNextIteration
      else s.activationCb
    injectedActivationEvents := s.injectedActivationEvents ||| events }

/-- `updateEvents`, up to the event itself: nothing for the same events, unless the trigger is
`edge`. -/
def updateEvents (s : FileEvent) (events : EventMask) : FileEvent :=
  if events = s.enabledEvents ∧ s.trigger ≠ .edge then s
  else { s with enabledEvents := events }

/-- `setEnabled`: what was injected is thrown away, with the callback that was to deliver it. -/
def setEnabled (s : FileEvent) (events : EventMask) : FileEvent :=
  let s :=
    if s.injectedActivationEvents ≠ 0#32 then
      { s with injectedActivationEvents := 0#32, activationCb := s.activationCb.cancel }
    else s
  s.updateEvents events

/-- `unregisterEventIfEmulatedEdge`. -/
def unregisterEventIfEmulatedEdge (s : FileEvent) (event : EventMask) : FileEvent :=
  if s.platformDefault = .emulatedEdge ∧ s.trigger = .emulatedEdge then
    s.updateEvents (s.enabledEvents &&& ~~~event)
  else s

/-- Up to the call of the user's callback, which is recorded. -/
def mergeInjectedEventsAndRunCb (s : FileEvent) (events : EventMask) : FileEvent :=
  let merged := s.injectedActivationEvents ≠ 0#32
  let events := if merged then events ||| s.injectedActivationEvents else events
  let s :=
    if merged then
      { s with injectedActivationEvents := 0#32, activationCb := s.activationCb.cancel }
    else s
  let s :=
    if s.platformDefault = .emulatedEdge ∧ s.trigger = .emulatedEdge then
      s.unregisterEventIfEmulatedEdge (events &&& (FileReadyType.Write ||| FileReadyType.Read))
    else s
  { s with running := true, delivered := s.delivered ++ [events] }

end FileEvent

/-- The translation of libevent's `what` in `assignEvents`. -/
def FileAction.fdEvents : FileAction → EventMask
  | .fdReady read write closed =>
    (if read then FileReadyType.Read else 0#32) |||
      (if write then FileReadyType.Write else 0#32) |||
      (if closed then FileReadyType.Closed else 0#32)
  | _ => 0#32

/-- One action. `activate` is for non-empty sets of the three event types, libevent reports
non-empty sets, and the loop runs one callback at a time. -/
def fileEventStep : FileAction → FileEvent → Option FileEvent
  | .activate events, s =>
    if events ≠ 0#32 ∧
        events &&& (FileReadyType.Read ||| FileReadyType.Write ||| FileReadyType.Closed) = events
    then some (s.activate events) else none
  | .setEnabled events, s => some (s.setEnabled events)
  | .fdReady read write closed, s =>
    if s.running = false ∧ (read || write || closed) then
      some (s.mergeInjectedEventsAndRunCb (FileAction.fdReady read write closed).fdEvents)
    else none
  | .activationFire, s =>
    if s.running = false then
      s.activationCb.fire.map fun cb ↦ { s with activationCb := cb }.mergeInjectedEventsAndRunCb
        0#32
    else none
  | .callbackReturn, s => if s.running then some { s with running := false } else none

/-! ### What the run says

The actions say which bits have been injected since the callback was last invoked or the events were
last set. Only the end of the list of actions matters, from the last boundary on.
-/

namespace FileAction

/-- The actions that invoke the user's callback. -/
def isCallback : FileAction → Bool
  | .fdReady .. | .activationFire => true
  | _ => false

/-- The actions after which nothing is owed: an invocation of the callback and `setEnabled`. -/
def isBoundary : FileAction → Bool
  | .setEnabled _ => true
  | a => a.isCallback

/-- The bits that an action injects. -/
def injection : FileAction → EventMask
  | .activate events => events
  | _ => 0#32

end FileAction

/-- The part of a run after its last boundary. -/
def sinceBoundary (as : List FileAction) : List FileAction :=
  as.rtakeWhile fun a ↦ !a.isBoundary

/-- The union of the bits injected since the last boundary. -/
def owed (as : List FileAction) : EventMask :=
  ((sinceBoundary as).map FileAction.injection).foldl (· ||| ·) 0#32

/-- A boundary leaves nothing owed, and any other action adds what it injects. -/
theorem owed_concat (as : List FileAction) (a : FileAction) :
    owed (as ++ [a]) = if a.isBoundary then 0#32 else owed as ||| a.injection := by
  unfold owed sinceBoundary
  rw [List.rtakeWhile_concat]
  cases a.isBoundary with
  | true => simp
  | false => simp [List.foldl_append]

/-- What was injected before a boundary is not owed after it. -/
theorem owed_append_cons {bs cs : List FileAction} {b : FileAction} (hb : b.isBoundary) :
    owed (bs ++ b :: cs) = owed cs := by
  induction cs using List.reverseRecOn with
  | nil => rw [owed_concat, if_pos hb]; rfl
  | append_singleton cs c ih =>
    rw [← List.cons_append, ← List.append_assoc, owed_concat, owed_concat, ih]

/-- Everything injected since the last boundary is owed. -/
theorem owed_and_of_mem {as : List FileAction} {e : EventMask}
    (he : FileAction.activate e ∈ sinceBoundary as) : owed as &&& e = e := by
  induction as using List.reverseRecOn with
  | nil => cases he
  | append_singleton as a ih =>
    have hconcat : sinceBoundary (as ++ [a]) =
        if !a.isBoundary then sinceBoundary as ++ [a] else [] := List.rtakeWhile_concat _ _ _
    rw [hconcat] at he
    rw [owed_concat]
    cases hb : a.isBoundary with
    | true => simp [hb] at he
    | false =>
      simp only [hb, Bool.not_false, if_true, List.mem_append, List.mem_singleton] at he
      simp only [Bool.false_eq_true, if_false]
      rcases he with he | rfl
      · -- A bit that is owed already stays owed when others are merged in.
        have hold := ih he
        ext i hi
        have := congrArg (·[i]) hold
        simp only [BitVec.getElem_and, BitVec.getElem_or] at this ⊢
        grind
      · ext i hi
        simp only [BitVec.getElem_and, BitVec.getElem_or, FileAction.injection]
        grind

/-! ### The invariant

The field holds the bits that are owed, and the callback is armed exactly if there are any.
-/

/-- What a run tells about the state it leads to. -/
structure Owes (as : List FileAction) (s : FileEvent) : Prop where
  /-- The callback is pending if and only if a bit is injected. -/
  armed : s.activationCb.pending = true ↔ s.injectedActivationEvents ≠ 0#32
  /-- The bits injected are those that the run owes. -/
  injected : s.injectedActivationEvents = owed as

namespace FileEvent

/-- `updateEvents` leaves the injected bits. -/
@[simp] theorem injected_updateEvents (s : FileEvent) (events : EventMask) :
    (s.updateEvents events).injectedActivationEvents = s.injectedActivationEvents := by
  rw [updateEvents]
  split <;> rfl

/-- `updateEvents` leaves the callback. -/
@[simp] theorem activationCb_updateEvents (s : FileEvent) (events : EventMask) :
    (s.updateEvents events).activationCb = s.activationCb := by
  rw [updateEvents]
  split <;> rfl

/-- `updateEvents` delivers nothing. -/
@[simp] theorem delivered_updateEvents (s : FileEvent) (events : EventMask) :
    (s.updateEvents events).delivered = s.delivered := by
  rw [updateEvents]
  split <;> rfl

/-- An invocation of the callback leaves no bit injected. -/
@[simp] theorem injected_merge (s : FileEvent) (events : EventMask) :
    (s.mergeInjectedEventsAndRunCb events).injectedActivationEvents = 0#32 := by
  rw [mergeInjectedEventsAndRunCb, unregisterEventIfEmulatedEdge]
  by_cases h : s.injectedActivationEvents = 0#32 <;> simp [h, apply_ite injectedActivationEvents]

/-- The callback is disarmed then, if it was armed only for bits. -/
theorem pending_merge {s : FileEvent}
    (h : s.activationCb.pending = true → s.injectedActivationEvents ≠ 0#32) (events : EventMask) :
    (s.mergeInjectedEventsAndRunCb events).activationCb.pending = false := by
  rw [mergeInjectedEventsAndRunCb, unregisterEventIfEmulatedEdge]
  by_cases h0 : s.injectedActivationEvents = 0#32
  · have hpending : s.activationCb.pending = false := by
      simpa using fun hp ↦ h hp h0
    simp [h0, hpending, apply_ite activationCb]
  · simp [h0, apply_ite activationCb]

/-- It is recorded with its own bits and all that were injected. -/
@[simp] theorem delivered_merge (s : FileEvent) (events : EventMask) :
    (s.mergeInjectedEventsAndRunCb events).delivered =
      s.delivered ++ [events ||| s.injectedActivationEvents] := by
  rw [mergeInjectedEventsAndRunCb, unregisterEventIfEmulatedEdge]
  by_cases h : s.injectedActivationEvents = 0#32 <;> simp [h, apply_ite delivered]

/-- `setEnabled` leaves no bit injected. -/
@[simp] theorem injected_setEnabled (s : FileEvent) (events : EventMask) :
    (s.setEnabled events).injectedActivationEvents = 0#32 := by
  rw [setEnabled]
  by_cases h : s.injectedActivationEvents = 0#32 <;> simp [h]

/-- `setEnabled` delivers nothing. -/
@[simp] theorem delivered_setEnabled (s : FileEvent) (events : EventMask) :
    (s.setEnabled events).delivered = s.delivered := by
  rw [setEnabled]
  by_cases h : s.injectedActivationEvents = 0#32 <;> simp [h]

/-- The callback is disarmed then, if it was armed only for bits. -/
theorem pending_setEnabled {s : FileEvent}
    (h : s.activationCb.pending = true → s.injectedActivationEvents ≠ 0#32) (events : EventMask) :
    (s.setEnabled events).activationCb.pending = false := by
  rw [setEnabled]
  by_cases h0 : s.injectedActivationEvents = 0#32
  · have hpending : s.activationCb.pending = false := by
      simpa using fun hp ↦ h hp h0
    simp [h0, hpending]
  · simp [h0]

end FileEvent

/-- `activate` leaves the callback armed, and adds a non-empty set. -/
theorem Owes.activate {as : List FileAction} {s : FileEvent} (h : Owes as s) {events : EventMask}
    (hne : events ≠ 0#32) : Owes (as ++ [.activate events]) (s.activate events) := by
  have hinjected : (s.activate events).injectedActivationEvents = owed as ||| events := by
    rw [← h.injected]
    rfl
  constructor
  · have hpending : (s.activate events).activationCb.pending = true := by
      rw [FileEvent.activate]
      by_cases h0 : s.injectedActivationEvents = 0#32
      · simp [h0]
      · simpa [h0] using h.armed.2 h0
    rw [hinjected]
    simp [hpending, BitVec.or_eq_zero_iff, hne]
  · rw [hinjected, owed_concat]
    rfl

/-- A step keeps the invariant: an invocation of the callback and `setEnabled` leave nothing
injected and the callback disarmed, `activate` leaves it armed. -/
theorem Owes.step {as : List FileAction} {s s' : FileEvent} {a : FileAction} (h : Owes as s)
    (hstep : fileEventStep a s = some s') : Owes (as ++ [a]) s' := by
  have hmerge (events) (hb : a.isBoundary = true) :
      Owes (as ++ [a]) (s.mergeInjectedEventsAndRunCb events) :=
    ⟨by simp [FileEvent.pending_merge h.armed.1], by simp [owed_concat, hb]⟩
  cases a with
  | activate events =>
    simp only [fileEventStep, Option.ite_none_right_eq_some, Option.some.injEq] at hstep
    obtain ⟨⟨hne, -⟩, rfl⟩ := hstep
    exact h.activate hne
  | setEnabled events =>
    obtain rfl := Option.some.inj hstep
    refine ⟨by simp [FileEvent.pending_setEnabled h.armed.1], ?_⟩
    rw [FileEvent.injected_setEnabled, owed_concat]
    rfl
  | fdReady read write closed =>
    simp only [fileEventStep, Option.ite_none_right_eq_some, Option.some.injEq] at hstep
    obtain ⟨-, rfl⟩ := hstep
    exact hmerge _ rfl
  -- firing disarms the callback before the injected events are taken
  | activationFire =>
    simp only [fileEventStep, Option.ite_none_right_eq_some] at hstep
    obtain ⟨cb, hfire, rfl⟩ := Option.map_eq_some_iff.1 hstep.2
    obtain ⟨-, rfl⟩ := SchedulableCallback.fire_eq_some_iff.1 hfire
    refine ⟨?_, by simp [owed_concat, FileAction.isBoundary, FileAction.isCallback]⟩
    rw [FileEvent.pending_merge (by simp), FileEvent.injected_merge]
    simp
  | callbackReturn =>
    simp only [fileEventStep, Option.ite_none_right_eq_some, Option.some.injEq] at hstep
    obtain ⟨-, rfl⟩ := hstep
    refine ⟨h.armed, ?_⟩
    rw [owed_concat]
    simpa [FileAction.isBoundary, FileAction.isCallback, FileAction.injection] using h.injected

/-- The run lemma for the invariant. -/
theorem owes_of_run {platformDefault trigger : FileTriggerType} {events : EventMask}
    {as : List FileAction} {s : FileEvent}
    (hrun : run fileEventStep as (FileEvent.create platformDefault trigger events) = some s) :
    Owes as s :=
  run_induction ⟨by simp [FileEvent.create], rfl⟩ (fun _ _ _ _ _ h hstep ↦ h.step hstep) hrun

/-- What a step delivers: an invocation of the callback gets the fd's events and all that is owed,
nothing else invokes it. -/
theorem Owes.delivered_step {as : List FileAction} {s s' : FileEvent} {a : FileAction}
    (h : Owes as s) (hstep : fileEventStep a s = some s') :
    s'.delivered = if a.isCallback then s.delivered ++ [a.fdEvents ||| owed as]
      else s.delivered := by
  rw [← h.injected]
  cases a with
  | activate events =>
    simp only [fileEventStep, Option.ite_none_right_eq_some, Option.some.injEq] at hstep
    obtain ⟨-, rfl⟩ := hstep
    rfl
  | setEnabled events =>
    obtain rfl := Option.some.inj hstep
    exact FileEvent.delivered_setEnabled s events
  | fdReady read write closed =>
    simp only [fileEventStep, Option.ite_none_right_eq_some, Option.some.injEq] at hstep
    obtain ⟨-, rfl⟩ := hstep
    exact FileEvent.delivered_merge s _
  | activationFire =>
    simp only [fileEventStep, Option.ite_none_right_eq_some] at hstep
    obtain ⟨cb, -, rfl⟩ := Option.map_eq_some_iff.1 hstep.2
    exact FileEvent.delivered_merge _ _
  | callbackReturn =>
    simp only [fileEventStep, Option.ite_none_right_eq_some, Option.some.injEq] at hstep
    obtain ⟨-, rfl⟩ := hstep
    rfl

/-- A callback is invoked for something: the fd is ready, or the armed callback finds what armed
it. -/
theorem Owes.ne_zero_of_isCallback {as : List FileAction} {s s' : FileEvent} {a : FileAction}
    (h : Owes as s) (hstep : fileEventStep a s = some s') (ha : a.isCallback = true) :
    a.fdEvents ||| owed as ≠ 0#32 := by
  cases a with
  | fdReady read write closed =>
    simp only [fileEventStep, Option.ite_none_right_eq_some] at hstep
    have hready : (FileAction.fdReady read write closed).fdEvents ≠ 0#32 := by
      have hsome := hstep.1.2
      revert hsome
      cases read <;> cases write <;> cases closed <;> decide
    simp [BitVec.or_eq_zero_iff, hready]
  | activationFire =>
    simp only [fileEventStep, Option.ite_none_right_eq_some] at hstep
    obtain ⟨cb, hfire, -⟩ := Option.map_eq_some_iff.1 hstep.2
    have howed : owed as ≠ 0#32 := by
      rw [← h.injected]
      exact h.armed.1 (SchedulableCallback.fire_eq_some_iff.1 hfire).1
    simp [BitVec.or_eq_zero_iff, howed]
  | activate _ | setEnabled _ | callbackReturn => cases ha

/-- The callback was never invoked with an empty mask. -/
theorem delivered_ne_zero_of_run {platformDefault trigger : FileTriggerType} {events : EventMask}
    {as : List FileAction} {s : FileEvent}
    (hrun : run fileEventStep as (FileEvent.create platformDefault trigger events) = some s) :
    ∀ mask ∈ s.delivered, mask ≠ 0#32 := by
  refine run_induction (P := fun _ s ↦ ∀ mask ∈ s.delivered, mask ≠ 0#32)
    (by simp [FileEvent.create])
    (fun as a s s' hs ih hstep mask hmask ↦ ?_) hrun
  have h := owes_of_run hs
  rw [h.delivered_step hstep] at hmask
  cases ha : a.isCallback with
  | false => exact ih mask (by simpa [ha] using hmask)
  | true =>
    simp only [ha, if_true, List.mem_append, List.mem_singleton] at hmask
    rcases hmask with hmask | rfl
    · exact ih mask hmask
    · exact h.ne_zero_of_isCallback hstep ha

/-- **Injected events are delivered exactly once.** After every run of a file event, re-entrant
calls of `activate` and `setEnabled` included:

* the activation callback is pending exactly when some event is injected;
* the callback has never been invoked with an empty mask;
* the next invocation is given the fd's events and all events injected since the last invocation or
  `setEnabled`, whichever came later, and a step that is not an invocation delivers nothing;
* what was injected before that point has no part in it. -/
theorem injected_events_delivered_once {platformDefault trigger : FileTriggerType}
    {events : EventMask} {as : List FileAction} {s : FileEvent}
    (hrun : run fileEventStep as (FileEvent.create platformDefault trigger events) = some s) :
    (s.activationCb.enabled = true ↔ s.injectedActivationEvents ≠ 0#32) ∧
      (∀ mask ∈ s.delivered, mask ≠ 0#32) ∧
      s.injectedActivationEvents = owed as ∧
      (∀ a s', fileEventStep a s = some s' →
        s'.delivered =
          if a.isCallback then s.delivered ++ [a.fdEvents ||| owed as] else s.delivered) ∧
      (∀ e, .activate e ∈ sinceBoundary as → owed as &&& e = e) ∧
      ∀ bs b cs, as = bs ++ b :: cs → b.isBoundary → owed as = owed cs := by
  have h := owes_of_run hrun
  refine ⟨h.armed, delivered_ne_zero_of_run hrun, h.injected,
    fun a s' hstep ↦ h.delivered_step hstep, fun e he ↦ owed_and_of_mem he, ?_⟩
  rintro bs b cs rfl hb
  exact owed_append_cons hb

/-- A run in which the callback injects an event itself, one event is thrown away by `setEnabled`,
and the last is still owed. -/
def reentrantActivations : List FileAction :=
  [.activate FileReadyType.Read, .fdReady false true false, .activate FileReadyType.Closed,
    .callbackReturn, .activationFire, .callbackReturn, .activate FileReadyType.Write,
    .setEnabled FileReadyType.Read, .activate FileReadyType.Read]

/-- The injected bits come with those of the fd, what `setEnabled` has thrown away does not come,
and the last bit is still owed. -/
theorem injected_events_delivered_once_reentrant :
    ∃ s, run fileEventStep reentrantActivations
        (FileEvent.create .edge .edge FileReadyType.Read) = some s ∧
      s.delivered = [FileReadyType.Write ||| FileReadyType.Read, FileReadyType.Closed] ∧
      s.injectedActivationEvents = owed reentrantActivations ∧
      owed reentrantActivations = FileReadyType.Read := by
  have hrun : run fileEventStep reentrantActivations
      (FileEvent.create .edge .edge FileReadyType.Read) = some _ := rfl
  exact ⟨_, hrun, by decide, (injected_events_delivered_once hrun).2.2.1, by decide⟩

end TcpServer.Event
