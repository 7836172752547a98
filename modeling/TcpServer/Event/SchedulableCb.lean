import Mathlib.Tactic.Common

/-!
# Schedulable callbacks

`SchedulableCallbackImpl` wraps one libevent timer event. All that its users see of libevent is
whether the event is pending, and what is assumed of libevent is exactly the four definitions here:
`event_active` and `event_add` make the event pending, `event_del` removes it, and the flag is
cleared *before* the callback runs (`fire`). The two ways of scheduling differ in when the callback
runs, not in whether it does, so both test `enabled` first and both leave the event pending.

The dispatcher has three of them, a file event has one. When a pending callback runs is left to the
order of the actions of whoever has it: the model says that it may run, and the theorems about
coming to rest say what follows when it does.
-/

namespace TcpServer.Event

/-- The pending flag of the raw libevent event. -/
structure SchedulableCallback where
  /-- Whether the event waits to be run. -/
  pending : Bool := false
deriving DecidableEq

namespace SchedulableCallback

/-- `evtimer_pending`. -/
def enabled (cb : SchedulableCallback) : Bool := cb.pending

/-- Skipped when already enabled, otherwise `event_active`. -/
def scheduleCallbackCurrentIteration (cb : SchedulableCallback) : SchedulableCallback :=
  if cb.enabled then cb else { cb with pending := true }

/-- Skipped when already enabled, otherwise `event_add` with a zero timeout. -/
def scheduleCallbackNextIteration (cb : SchedulableCallback) : SchedulableCallback :=
  if cb.enabled then cb else { cb with pending := true }

/-- `event_del`. -/
def cancel (cb : SchedulableCallback) : SchedulableCallback := { cb with pending := false }

/-- libevent runs the callback of a pending event, clearing the flag first. -/
def fire (cb : SchedulableCallback) : Option SchedulableCallback :=
  if cb.pending then some { cb with pending := false } else none

@[simp] theorem pending_scheduleCallbackCurrentIteration (cb : SchedulableCallback) :
    cb.scheduleCallbackCurrentIteration.pending = true := by
  rw [scheduleCallbackCurrentIteration, enabled]
  split <;> simp_all

@[simp] theorem pending_scheduleCallbackNextIteration (cb : SchedulableCallback) :
    cb.scheduleCallbackNextIteration.pending = true := by
  rw [scheduleCallbackNextIteration, enabled]
  split <;> simp_all

@[simp] theorem pending_cancel (cb : SchedulableCallback) : cb.cancel.pending = false := rfl

/-- A callback fires exactly if it is pending, and is not pending when it runs. -/
theorem fire_eq_some_iff {cb cb' : SchedulableCallback} :
    cb.fire = some cb' ↔ cb.pending = true ∧ cb' = { pending := false } := by
  rcases cb with ⟨pending⟩
  cases pending with
  | false => simp [fire]
  | true => simp [fire, eq_comm]

end SchedulableCallback

end TcpServer.Event
