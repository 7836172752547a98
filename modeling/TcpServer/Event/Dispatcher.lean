import TcpServer.Lib.Machine
import TcpServer.Event.SchedulableCb
import Mathlib.Logic.Function.Basic
import Mathlib.Data.List.ReduceOption

/-!
# The dispatcher as a machine

`DispatcherImpl` owns three queues, each with a schedulable callback that empties it:

* `post_callbacks_`, filled by `post` from any thread and run by `runPostCallbacks`;
* the two deferred deletion vectors, filled by `deferredDelete` on the dispatcher thread and
  destroyed by `clearDeferredDeleteList`;
* `deletables_in_dispatcher_thread_`, filled by `deleteInDispatcherThread` from any thread and
  destroyed by `runThreadLocalDelete` and, once, by `shutdown`.

An action is one atomic step of one thread. `post` and `deleteInDispatcherThread` are two actions
each: the append under the lock, which remembers whether the list was empty, and the scheduling
after the unlock; `Caller` is where a thread stands between the two. The dispatcher thread is `none`
and every other thread is `some i`.

The dispatcher thread runs one callback at a time (loops are not nested), so its control state is
`Loop`, a deletion pass of `clearDeferredDeleteList` in progress (`Pass`), and its own `Caller`. A
pass may be under way in any control state, since any code on the thread may start one. Between two
elements of a pass, or two entries of a list being run, destructors and callbacks execute; what they
may do is any of the calls above (`userCode`), in any number.

The `posted`, `executed`, … fields are the history of the run: nothing in a step reads them.

What is proved about the machine is in the modules on its mechanisms: the posted callbacks in `Post`
and `RunPostCallbacks`, the deletion vectors in `DeferredDelete`, the deletables in
`ThreadLocalDelete`, and in `Drain` that the three together come to rest. They share the step lemmas
of `Steps`.
-/

namespace TcpServer.Event

/-- Where a thread stands inside `post` or `deleteInDispatcherThread`: in neither, or between the
locked append and the scheduling, with the remembered `do_post` or `need_schedule`. -/
inductive Caller
  | outside
  | posted (doPost : Bool)
  | deletable (needSchedule : Bool)
deriving DecidableEq

/-- The control state of the dispatcher thread, outside the passes of `clearDeferredDeleteList`. -/
inductive Loop
  /-- No callback of the dispatcher's own is running. -/
  | idle
  /-- In `runPostCallbacks`, before its call of `clearDeferredDeleteList`. -/
  | postEntered
  /-- In `runPostCallbacks`, before it takes `post_callbacks_`. -/
  | postTaking
  /-- In `runPostCallbacks`, with the batch that is still to be run. -/
  | postRunning (callbacks : List ℕ)
  /-- `deferred_delete_cb_` has fired; `clearDeferredDeleteList` is being entered. -/
  | deferredEntered
  /-- In `runThreadLocalDelete`, before it takes the list. -/
  | threadLocalEntered
  /-- In `runThreadLocalDelete`, with what is still to be destroyed. -/
  | threadLocalRunning (toBeDelete : List ℕ)
  /-- In `shutdown`, before it takes the list. -/
  | shutdownEntered
  /-- In `shutdown`, with what is still to be destroyed. -/
  | shutdownRunning (localDeletables : List ℕ)
  /-- `shutdown` has returned. -/
  | down
deriving DecidableEq

/-- A pass of `clearDeferredDeleteList` over one of the two vectors: `first` says over which,
`index` is the loop counter and `numToDelete` the size the vector had on entry. -/
structure Pass where
  /-- Whether the vector is `to_delete_1_`. -/
  first : Bool
  /-- The next element to be destroyed. -/
  index : ℕ
  /-- The size the vector had on entry. -/
  numToDelete : ℕ
deriving DecidableEq

/-- The state of a `DispatcherImpl` together with its callers `ι` on other threads. -/
structure Dispatcher (ι : Type*) where
  /-- `post_callbacks_`. -/
  postCallbacks : List ℕ := []
  /-- `post_cb_`. -/
  postCb : SchedulableCallback := {}
  /-- `to_delete_1_`; a slot whose object is gone is `none`. -/
  toDelete1 : List (Option ℕ) := []
  /-- `to_delete_2_`. -/
  toDelete2 : List (Option ℕ) := []
  /-- Whether `current_to_delete_` points to `to_delete_1_`. -/
  currentFirst : Bool := true
  /-- `deferred_deleting_`. -/
  deferredDeleting : Bool := false
  /-- `deferred_delete_cb_`. -/
  deferredDeleteCb : SchedulableCallback := {}
  /-- The pass of `clearDeferredDeleteList` that is under way. -/
  pass : Option Pass := none
  /-- `deletables_in_dispatcher_thread_`. -/
  deletables : List ℕ := []
  /-- `thread_local_delete_cb_`. -/
  threadLocalDeleteCb : SchedulableCallback := {}
  /-- `shutdown_called_`. -/
  shutdownCalled : Bool := false
  /-- Where the dispatcher thread stands. -/
  loop : Loop := .idle
  /-- Where each thread stands in a call of its own. -/
  caller : Option ι → Caller := fun _ ↦ .outside
  /-- History: the callbacks appended by `post`, and those executed. -/
  posted : List ℕ := []
  /-- The callbacks that were invoked. -/
  executed : List ℕ := []
  /-- History: the non-null objects handed to `deferredDelete`, and those destroyed. -/
  handed : List ℕ := []
  /-- The objects that a pass has destroyed. -/
  destroyed : List ℕ := []
  /-- History: the deletables appended by `deleteInDispatcherThread`, and those destroyed. -/
  appended : List ℕ := []
  /-- The deletables that were destroyed. -/
  deleted : List ℕ := []

/-- The atomic steps. Those without a thread are steps of the dispatcher thread. -/
inductive Action (ι : Type*)
  | postAppend (thread : Option ι) (callback : ℕ)
  | postSchedule (thread : Option ι)
  | deleteAppend (thread : Option ι) (deletable : ℕ)
  | deleteSchedule (thread : Option ι)
  | deferredDelete (toDelete : Option ℕ)
  | clearDeferredDeleteList
  | passReset
  | passEnd
  | run
  | postFire
  | postClear
  | postTake
  | postExecute
  | postReturn
  | deferredFire
  | deferredClear
  | threadLocalFire
  | threadLocalTake
  | threadLocalPop
  | threadLocalReturn
  | shutdown
  | shutdownTake
  | shutdownPop
  | shutdownReturn

namespace Dispatcher

variable {ι : Type*}

/-- The deletion vector `to_delete_1_` or `to_delete_2_`. -/
def vec (s : Dispatcher ι) (first : Bool) : List (Option ℕ) :=
  bif first then s.toDelete1 else s.toDelete2

/-- Puts one of the two vectors back. -/
def setVec (s : Dispatcher ι) (first : Bool) (v : List (Option ℕ)) : Dispatcher ι :=
  { s with
    toDelete1 := bif first then v else s.toDelete1
    toDelete2 := bif first then s.toDelete2 else v }

/-- The callbacks of the batch that `runPostCallbacks` is executing. -/
def batch (s : Dispatcher ι) : List ℕ :=
  match s.loop with
  | .postRunning callbacks => callbacks
  | _ => []

/-- The deletables that a delete pass or `shutdown` has taken and not yet destroyed. -/
def localDeletables (s : Dispatcher ι) : List ℕ :=
  match s.loop with
  | .threadLocalRunning l => l
  | .shutdownRunning l => l
  | _ => []

/-- Whether code that is not the dispatcher's own may be executing on the dispatcher thread: a
destructor inside a pass, a posted callback, a deletable's destructor, or another event's
callback. -/
def userCode (s : Dispatcher ι) : Bool :=
  s.pass.isSome ||
    match s.loop with
    | .idle | .postRunning _ | .threadLocalRunning _ | .shutdownRunning _ => true
    | _ => false

/-- Whether a thread may start a call. -/
def mayCall (s : Dispatcher ι) (thread : Option ι) : Bool :=
  s.caller thread = .outside && (thread.isSome || s.userCode)

/-- Whether the dispatcher thread may go on with its own code: no destructor of a pass is running
and no call of its own is half way. -/
def loopReady (s : Dispatcher ι) : Bool :=
  s.pass.isNone && s.caller none = .outside

section Calls

variable [DecidableEq ι]

/-- Moves a thread in or out of a call. -/
def setCaller (s : Dispatcher ι) (thread : Option ι) (c : Caller) : Dispatcher ι :=
  { s with caller := Function.update s.caller thread c }

/-- The part of `post` under `post_lock_`. -/
def postAppend (s : Dispatcher ι) (thread : Option ι) (callback : ℕ) : Dispatcher ι :=
  let doPost := s.postCallbacks.isEmpty
  { s.setCaller thread (.posted doPost) with
    postCallbacks := s.postCallbacks ++ [callback]
    posted := s.posted ++ [callback] }

/-- The rest of `post`. -/
def postSchedule (s : Dispatcher ι) (thread : Option ι) (doPost : Bool) : Dispatcher ι :=
  { s.setCaller thread .outside with
    postCb := if doPost then s.postCb.scheduleCallbackCurrentIteration else s.postCb }

/-- The part of `deleteInDispatcherThread` under `thread_local_deletable_lock_`. -/
def deleteAppend (s : Dispatcher ι) (thread : Option ι) (deletable : ℕ) : Dispatcher ι :=
  let needSchedule := s.deletables.isEmpty
  { s.setCaller thread (.deletable needSchedule) with
    deletables := s.deletables ++ [deletable]
    appended := s.appended ++ [deletable] }

/-- The rest of `deleteInDispatcherThread`. -/
def deleteSchedule (s : Dispatcher ι) (thread : Option ι) (needSchedule : Bool) : Dispatcher ι :=
  { s.setCaller thread .outside with
    threadLocalDeleteCb :=
      if needSchedule then s.threadLocalDeleteCb.scheduleCallbackCurrentIteration
      else s.threadLocalDeleteCb }

end Calls

/-- `deferredDelete`: a null pointer is ignored, and the callback is scheduled when the vector has
just become non-empty. -/
def deferredDelete (s : Dispatcher ι) : Option ℕ → Dispatcher ι
  | none => s
  | some o =>
    let v := s.vec s.currentFirst ++ [some o]
    { s.setVec s.currentFirst v with
      handed := s.handed ++ [o]
      deferredDeleteCb :=
        if v.length = 1 then s.deferredDeleteCb.scheduleCallbackCurrentIteration
        else s.deferredDeleteCb }

/-- `clearDeferredDeleteList` up to its loop: either it returns at once, or it swaps the vectors and
starts a pass over the one that was current. -/
def clearDeferredDeleteList (s : Dispatcher ι) : Dispatcher ι :=
  let numToDelete := (s.vec s.currentFirst).length
  if s.deferredDeleting || numToDelete = 0 then s
  else
    { s with
      currentFirst := !s.currentFirst
      deferredDeleting := true
      pass := some ⟨s.currentFirst, 0, numToDelete⟩ }

/-- One turn of the loop: `(*to_delete)[i].reset()`. The destructor runs after the slot is null. -/
def passReset (s : Dispatcher ι) (p : Pass) : Dispatcher ι :=
  let v := s.vec p.first
  { s.setVec p.first (v.set p.index none) with
    destroyed := s.destroyed ++ (v[p.index]?.join).toList
    pass := some { p with index := p.index + 1 } }

/-- After the loop: `to_delete->clear()`, which destroys what the vector still holds, and the
flag. -/
def passEnd (s : Dispatcher ι) (p : Pass) : Dispatcher ι :=
  { s.setVec p.first [] with
    destroyed := s.destroyed ++ (s.vec p.first).reduceOption
    deferredDeleting := false
    pass := none }

end Dispatcher

open Dispatcher in
/-- One step of the dispatcher or of one of its callers. -/
def dispatcherStep {ι : Type*} [DecidableEq ι] :
    Action ι → Dispatcher ι → Option (Dispatcher ι)
  | .postAppend t cb, s => if s.mayCall t then some (s.postAppend t cb) else none
  | .postSchedule t, s =>
    match s.caller t with
    | .posted doPost => some (s.postSchedule t doPost)
    | _ => none
  | .deleteAppend t d, s => if s.mayCall t then some (s.deleteAppend t d) else none
  | .deleteSchedule t, s =>
    match s.caller t with
    | .deletable needSchedule => some (s.deleteSchedule t needSchedule)
    | _ => none
  | .deferredDelete o, s => if s.mayCall none then some (s.deferredDelete o) else none
  | .clearDeferredDeleteList, s =>
    if s.mayCall none then some s.clearDeferredDeleteList else none
  | .passReset, s =>
    match s.pass with
    | some p =>
      if p.index < p.numToDelete ∧ s.caller none = .outside then some (s.passReset p) else none
    | none => none
  | .passEnd, s =>
    match s.pass with
    | some p =>
      if p.index = p.numToDelete ∧ s.caller none = .outside then some (s.passEnd p) else none
    | none => none
  | .run, s => if s.loopReady ∧ s.loop = .idle then some { s with loop := .postEntered } else none
  | .postFire, s =>
    if s.loopReady ∧ s.loop = .idle then
      s.postCb.fire.map fun cb ↦ { s with postCb := cb, loop := .postEntered }
    else none
  | .postClear, s =>
    if s.loopReady ∧ s.loop = .postEntered then
      some { s.clearDeferredDeleteList with loop := .postTaking }
    else none
  | .postTake, s =>
    if s.loopReady ∧ s.loop = .postTaking then
      some { s with postCallbacks := [], loop := .postRunning s.postCallbacks }
    else none
  | .postExecute, s =>
    match s.loop with
    | .postRunning (cb :: cbs) =>
      if s.loopReady then some { s with executed := s.executed ++ [cb], loop := .postRunning cbs }
      else none
    | _ => none
  | .postReturn, s =>
    if s.loopReady ∧ s.loop = .postRunning [] then some { s with loop := .idle } else none
  | .deferredFire, s =>
    if s.loopReady ∧ s.loop = .idle then
      s.deferredDeleteCb.fire.map fun cb ↦
        { s with deferredDeleteCb := cb, loop := .deferredEntered }
    else none
  | .deferredClear, s =>
    if s.loopReady ∧ s.loop = .deferredEntered then
      some { s.clearDeferredDeleteList with loop := .idle }
    else none
  | .threadLocalFire, s =>
    if s.loopReady ∧ s.loop = .idle then
      s.threadLocalDeleteCb.fire.map fun cb ↦
        { s with threadLocalDeleteCb := cb, loop := .threadLocalEntered }
    else none
  | .threadLocalTake, s =>
    if s.loopReady ∧ s.loop = .threadLocalEntered then
      some { s with deletables := [], loop := .threadLocalRunning s.deletables }
    else none
  | .threadLocalPop, s =>
    match s.loop with
    | .threadLocalRunning (d :: ds) =>
      if s.loopReady then
        some { s with deleted := s.deleted ++ [d], loop := .threadLocalRunning ds }
      else none
    | _ => none
  | .threadLocalReturn, s =>
    if s.loopReady ∧ s.loop = .threadLocalRunning [] then some { s with loop := .idle } else none
  | .shutdown, s =>
    if s.loopReady ∧ s.loop = .idle then some { s with loop := .shutdownEntered } else none
  | .shutdownTake, s =>
    if s.loopReady ∧ s.loop = .shutdownEntered then
      some { s with deletables := [], loop := .shutdownRunning s.deletables }
    else none
  | .shutdownPop, s =>
    match s.loop with
    | .shutdownRunning (d :: ds) =>
      if s.loopReady then some { s with deleted := s.deleted ++ [d], loop := .shutdownRunning ds }
      else none
    | _ => none
  | .shutdownReturn, s =>
    if s.loopReady ∧ s.loop = .shutdownRunning [] then
      some { s with shutdownCalled := true, loop := .down }
    else none

/-! ### What the deferred deletion touches

The three mechanisms share nothing but the control state, and their invariants are proved one by
one. These two lemmas are what the others need to know of the deletion vectors. -/

namespace Dispatcher

variable {ι : Type*} (s : Dispatcher ι)

/-- Handing an object over touches the vectors, their callback and their history. -/
theorem deferredDelete_frame (o : Option ℕ) : ∃ v₁ v₂ handed cb, s.deferredDelete o =
    { s with toDelete1 := v₁, toDelete2 := v₂, handed := handed, deferredDeleteCb := cb } := by
  cases o with
  | none => exact ⟨_, _, _, _, rfl⟩
  | some o => exact ⟨_, _, _, _, rfl⟩

/-- Entering the function touches the choice of the vector, the flag and the pass. -/
theorem clearDeferredDeleteList_frame : ∃ c d p, s.clearDeferredDeleteList =
    { s with currentFirst := c, deferredDeleting := d, pass := p } := by
  unfold clearDeferredDeleteList
  simp only
  split
  · exact ⟨_, _, _, rfl⟩
  · exact ⟨_, _, _, rfl⟩

end Dispatcher

end TcpServer.Event
