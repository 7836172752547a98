import TcpServer.Event.Steps

/-!
# The thread of a worker

`start` gives a worker its thread, and `stop` joins it. In between the thread posts the callback
that it was started with, runs its dispatcher and, when the loop has returned, shuts the dispatcher
down and destroys the connection handler. Callbacks posted by other threads use the handler without
asking whether it is there (`addListener`), so it is the order of these steps that keeps them safe.

The machine has the routine of the thread on top of the dispatcher. Other threads may be anywhere in
their calls; the thread itself is in user code only where the routine is inside `run` or `shutdown`.
When `event_base_loop` returns is left open: after an exit, or where libevent has no event left.

What was posted before `run` is executed before the loop is entered, callbacks run only while the
handler is there, and once the routine has come to its end nothing is executed any more
(`worker_lifecycle`). A callback that is posted too late stays in the queue.
-/

namespace TcpServer.Event

open Machine Dispatcher

variable {ι : Type*}

namespace Dispatcher

variable [DecidableEq ι] {a : Action ι} {s s' : Dispatcher ι}

/-- Where a flush is that is to execute `flushed`. -/
def Flushing (flushed : List ℕ) (s : Dispatcher ι) : Prop :=
  match s.loop with
  | .postEntered | .postTaking => True
  | .postRunning callbacks => flushed <+: s.executed ++ callbacks
  | _ => False

omit [DecidableEq ι] in
theorem Flushing.under_way {flushed : List ℕ} (h : s.Flushing flushed) :
    s.loop ≠ .idle ∧ s.shutdownPhase = false := by
  rw [Flushing] at h
  split at h
  · rename_i hloop
    simp [shutdownPhase, hloop]
  · rename_i hloop
    simp [shutdownPhase, hloop]
  · rename_i hloop
    simp [shutdownPhase, hloop]
  · exact h.elim

/-- A step of the dispatcher leaves the flush under way, or ends it with everything executed. -/
theorem flushing_step {flushed : List ℕ} (hpost : s.PostInv) (hs : s.Flushing flushed)
    (hposted : flushed <+: s.posted) (hshutdown : a ≠ .shutdown)
    (h : dispatcherStep a s = some s') :
    s'.Flushing flushed ∨ s'.loop = .idle ∧ flushed <+: s'.executed := by
  -- a step that keeps the loop and the history of the executions
  have hsame (hloop : s'.loop = s.loop) (hexecuted : s'.executed = s.executed) :
      s'.Flushing flushed := by
    rw [Flushing, hloop, hexecuted]
    exact hs
  have hnot {l : Loop} (hl : s.loop = l) (hfalse : ¬ ({ s with loop := l } : Dispatcher ι).Flushing
    flushed) :
      False := by
    rw [Flushing, hl] at hs
    exact hfalse hs
  cases a <;> simp only [dispatcherStep, Option.ite_none_right_eq_some, Option.some.injEq] at h
  case shutdown => exact (hshutdown rfl).elim
  case postAppend | deleteAppend =>
    obtain ⟨-, rfl⟩ := h
    exact .inl (hsame rfl rfl)
  case postSchedule | deleteSchedule =>
    split at h
    · obtain rfl := Option.some.inj h
      exact .inl (hsame rfl rfl)
    · cases h
  case deferredDelete o =>
    obtain ⟨-, rfl⟩ := h
    obtain ⟨_, _, _, _, heq⟩ := s.deferredDelete_frame o
    exact .inl (hsame (by rw [heq]) (by rw [heq]))
  case clearDeferredDeleteList =>
    obtain ⟨-, rfl⟩ := h
    obtain ⟨_, _, _, heq⟩ := s.clearDeferredDeleteList_frame
    exact .inl (hsame (by rw [heq]) (by rw [heq]))
  case passReset | passEnd =>
    split at h
    · obtain ⟨-, rfl⟩ := by simpa using h
      exact .inl (hsame rfl rfl)
    · cases h
  case postClear =>
    obtain ⟨-, rfl⟩ := h
    exact .inl trivial
  case postTake =>
    obtain ⟨⟨-, hloop⟩, rfl⟩ := h
    have hfifo := hpost.fifo
    rw [batch, hloop, List.append_nil] at hfifo
    exact .inl (hfifo ▸ hposted)
  case postExecute =>
    split at h
    · rename_i cb cbs hloop
      obtain ⟨-, rfl⟩ := by simpa using h
      rw [Flushing, hloop] at hs
      refine .inl ?_
      show flushed <+: s.executed ++ [cb] ++ cbs
      rw [List.append_assoc]
      exact hs
    · cases h
  case postReturn =>
    obtain ⟨⟨-, hloop⟩, rfl⟩ := h
    rw [Flushing, hloop] at hs
    have hall : flushed <+: s.executed ++ [] := hs
    rw [List.append_nil] at hall
    exact .inr ⟨rfl, hall⟩
  case run | postFire | deferredFire | threadLocalFire | threadLocalReturn | deferredClear
    | threadLocalTake | shutdownTake | shutdownReturn =>
    obtain ⟨⟨-, hloop⟩, -⟩ := h
    exact (hnot hloop id).elim
  case threadLocalPop | shutdownPop =>
    split at h
    · rename_i hloop
      exact (hnot hloop id).elim
    · cases h

end Dispatcher

end TcpServer.Event

namespace TcpServer.Server

open Machine Event

variable {ι : Type*}

/-- Where `threadRoutine` is: what it is about to do, or what it is in. -/
inductive Routine
  | notCreated
  | posting
  | scheduling
  | running
  /-- In `run`, before `event_base_loop`. -/
  | flushing
  /-- In `event_base_loop`. -/
  | looping
  | shuttingDown
  /-- In `shutdown`. -/
  | inShutdown
  | resetting
  | finished
deriving DecidableEq

/-- Whether the routine is inside calls that run the code of others. -/
def Routine.runsCode : Routine → Bool
  | .flushing | .looping | .inShutdown => true
  | _ => false

/-- The routine has entered `event_base_loop`. -/
def Routine.pastFlush : Routine → Bool
  | .looping | .shuttingDown | .inShutdown | .resetting | .finished => true
  | _ => false

/-- A worker, with the dispatcher and its callers. -/
structure WorkerImpl (ι : Type*) where
  /-- Where the routine is. -/
  routine : Routine := .notCreated
  /-- Whether `handler_` is not null. -/
  handler : Bool := true
  /-- Whether the thread has been joined. -/
  joined : Bool := false
  /-- The dispatcher of the worker. -/
  dispatcher : Dispatcher ι := {}
  /-- History: what had been posted when the routine called `run`. -/
  flushed : List ℕ := []

/-- A step: the calls of `start` and `stop`, a step of the routine, or one of the dispatcher. -/
inductive WorkerAction (ι : Type*)
  | start
  | threadRoutine
  | join
  | dispatcher (a : Action ι)

namespace WorkerImpl

/-- `numConnections`, with the count of the handler. -/
def numConnections (w : WorkerImpl ι) (numHandlerConnections : UInt64) : UInt64 :=
  if w.handler then numHandlerConnections else 0

variable [DecidableEq ι]

/-- The next step of `threadRoutine(cb)`. -/
def threadRoutine (cb : ℕ) (w : WorkerImpl ι) : Option (WorkerImpl ι) :=
  match w.routine with
  | .notCreated | .flushing | .finished => none
  | .posting =>
    (dispatcherStep (.postAppend none cb) w.dispatcher).map fun d ↦
      { w with routine := .scheduling, dispatcher := d }
  | .scheduling =>
    (dispatcherStep (.postSchedule none) w.dispatcher).map fun d ↦
      { w with routine := .running, dispatcher := d }
  | .running =>
    (dispatcherStep .run w.dispatcher).map fun d ↦
      { w with routine := .flushing, dispatcher := d, flushed := w.dispatcher.posted }
  | .looping =>
    if w.dispatcher.loopReady ∧ w.dispatcher.loop =
      .idle then some { w with routine := .shuttingDown }
    else none
  | .shuttingDown =>
    (dispatcherStep .shutdown w.dispatcher).map fun d ↦
      { w with routine := .inShutdown, dispatcher := d }
  | .inShutdown =>
    if w.dispatcher.loop = .down then some { w with routine := .resetting } else none
  | .resetting => some { w with routine := .finished, handler := false }

/-- Whether a step of the dispatcher may be taken: `run` and `shutdown` are called by the
routine. -/
def mayTake (w : WorkerImpl ι) : Action ι → Bool
  | .run | .shutdown => false
  | a => a.thread.isSome || w.routine.runsCode

end WorkerImpl

/-- One step of the worker, of `start(cb)` and `stop`, or of the dispatcher. -/
def workerStep [DecidableEq ι] (cb : ℕ) : WorkerAction ι → WorkerImpl ι → Option (WorkerImpl ι)
  | .start, w => if w.routine = .notCreated then some { w with routine := .posting } else none
  | .threadRoutine, w => w.threadRoutine cb
  | .join, w =>
    if w.routine = .finished ∧ w.joined = false then some { w with joined := true } else none
  | .dispatcher a, w =>
    if w.mayTake a then
      (dispatcherStep a w.dispatcher).map fun d ↦ { w with
        dispatcher := d
        -- `runPostCallbacks` has returned to `run`
        routine := if w.routine = .flushing ∧ d.loop = .idle then .looping else w.routine }
    else none

namespace WorkerImpl

/-- What holds where the routine is. -/
def AtRoutine (cb : ℕ) (w : WorkerImpl ι) : Prop :=
  match w.routine with
  | .notCreated | .posting => w.dispatcher.loop = .idle
  | .scheduling | .running => w.dispatcher.loop = .idle ∧ cb ∈ w.dispatcher.posted
  | .flushing =>
    w.dispatcher.Flushing w.flushed ∧ w.flushed <+: w.dispatcher.posted ∧ cb ∈ w.flushed
  | .looping => w.flushed <+: w.dispatcher.executed ∧ cb ∈ w.flushed
  | .shuttingDown =>
    w.dispatcher.loop = .idle ∧ w.flushed <+: w.dispatcher.executed ∧ cb ∈ w.flushed
  | .inShutdown =>
    w.dispatcher.shutdownPhase = true ∧ w.flushed <+: w.dispatcher.executed ∧ cb ∈ w.flushed
  | .resetting | .finished =>
    w.dispatcher.loop = .down ∧ w.flushed <+: w.dispatcher.executed ∧ cb ∈ w.flushed

/-- The invariant of a worker. -/
structure Inv (cb : ℕ) (w : WorkerImpl ι) : Prop where
  /-- The dispatcher loses nothing. -/
  post : w.dispatcher.PostInv
  /-- The dispatcher is as the routine has left it. -/
  atRoutine : w.AtRoutine cb
  /-- The handler is there until the routine has come to its end. -/
  handler : w.handler = false ↔ w.routine = .finished
  /-- A thread that was joined has come to its end. -/
  joined : w.joined = true → w.routine = .finished

theorem inv_init (cb : ℕ) : ({} : WorkerImpl ι).Inv cb :=
  ⟨Dispatcher.postInv_init, rfl, by simp, fun h ↦ nomatch h⟩

theorem mayTake_of_thread {w : WorkerImpl ι} {a : Action ι} (h : a.thread.isSome = true) :
    w.mayTake a = true := by
  cases a <;> first | cases h | simp only [mayTake, h, Bool.true_or]

/-- A step of another thread, where the routine runs no code of others. -/
theorem thread_of_mayTake {w : WorkerImpl ι} {a : Action ι} (h : w.mayTake a = true)
    (hroutine : w.routine.runsCode = false) : a.thread.isSome = true := by
  cases a <;> simp only [mayTake, hroutine, Bool.or_false, Bool.false_eq_true] at h <;> exact h

variable [DecidableEq ι]

/-- A step of the routine keeps the invariant. -/
theorem Inv.threadRoutine {cb : ℕ} {w w' : WorkerImpl ι} (hw : w.Inv cb)
    (h : w.threadRoutine cb = some w') : w'.Inv cb := by
  obtain ⟨hpost, hat, hhandler, hjoined⟩ := hw
  rw [WorkerImpl.threadRoutine] at h
  cases hroutine : w.routine <;> rw [hroutine] at h hhandler hjoined <;>
    rw [AtRoutine, hroutine] at hat <;> dsimp only at h hat
  case notCreated | flushing | finished => cases h
  case posting =>
    obtain ⟨d, hd, rfl⟩ := Option.map_eq_some_iff.1 h
    refine ⟨Dispatcher.postInv_step hpost hd, ⟨?_,
      ?_⟩, by simpa using hhandler, by simpa using hjoined⟩
    · simp only [dispatcherStep, Option.ite_none_right_eq_some, Option.some.injEq] at hd
      obtain ⟨-, rfl⟩ := hd
      exact hat
    · show cb ∈ d.posted
      rw [posted_step hd]
      exact List.mem_append_right _ (List.mem_singleton_self cb)
  case scheduling =>
    obtain ⟨d, hd, rfl⟩ := Option.map_eq_some_iff.1 h
    refine ⟨Dispatcher.postInv_step hpost hd, ⟨?_,
      ?_⟩, by simpa using hhandler, by simpa using hjoined⟩
    · simp only [dispatcherStep] at hd
      split at hd
      · exact Option.some.inj hd ▸ hat.1
      · cases hd
    · show cb ∈ d.posted
      rw [posted_step hd]
      exact List.mem_append_left _ hat.2
  case running =>
    obtain ⟨d, hd, rfl⟩ := Option.map_eq_some_iff.1 h
    refine ⟨Dispatcher.postInv_step hpost hd, ⟨?_, ?_, hat.2⟩, by simpa using hhandler,
      by simpa using hjoined⟩
    · simp only [dispatcherStep, Option.ite_none_right_eq_some, Option.some.injEq] at hd
      obtain ⟨-, rfl⟩ := hd
      trivial
    · show w.dispatcher.posted <+: d.posted
      rw [posted_step hd]
      exact List.prefix_append _ _
  case looping =>
    obtain ⟨⟨-, hloop⟩, h⟩ := Option.ite_none_right_eq_some.1 h
    obtain rfl := Option.some.inj h
    exact ⟨hpost, ⟨hloop, hat⟩, by simpa using hhandler, by simpa using hjoined⟩
  case shuttingDown =>
    obtain ⟨d, hd, rfl⟩ := Option.map_eq_some_iff.1 h
    refine ⟨Dispatcher.postInv_step hpost hd, ⟨?_, ?_, hat.2.2⟩, by simpa using hhandler,
      by simpa using hjoined⟩
    · simp only [dispatcherStep, Option.ite_none_right_eq_some, Option.some.injEq] at hd
      obtain ⟨-, rfl⟩ := hd
      rfl
    · exact hat.2.1.trans (Dispatcher.executed_prefix_step hd)
  case inShutdown =>
    obtain ⟨hdown, h⟩ := Option.ite_none_right_eq_some.1 h
    obtain rfl := Option.some.inj h
    exact ⟨hpost, ⟨hdown, hat.2⟩, by simpa using hhandler, by simpa using hjoined⟩
  case resetting =>
    obtain rfl := Option.some.inj h
    exact ⟨hpost, hat, by simp, fun _ ↦ rfl⟩

/-- A step of the dispatcher keeps the invariant. -/
theorem Inv.dispatcher {cb : ℕ} {w w' : WorkerImpl ι} {a : Action ι} (hw : w.Inv cb)
    (h : workerStep cb (.dispatcher a) w = some w') : w'.Inv cb := by
  obtain ⟨hpost, hat, hhandler, hjoined⟩ := hw
  obtain ⟨hmay, h⟩ := Option.ite_none_right_eq_some.1 h
  obtain ⟨d, hd, rfl⟩ := Option.map_eq_some_iff.1 h
  have hposted : w.dispatcher.posted <+: d.posted := posted_step hd ▸ List.prefix_append _ _
  have hexecuted := Dispatcher.executed_prefix_step hd
  refine ⟨Dispatcher.postInv_step hpost hd, ?_, ?_, ?_⟩
  · cases hroutine : w.routine <;> rw [AtRoutine, hroutine] at hat <;>
      simp only [AtRoutine, reduceCtorEq, false_and, if_false, true_and] at hat ⊢
    case notCreated | posting =>
      rw [Dispatcher.loop_of_thread (thread_of_mayTake hmay (by rw [hroutine]; rfl)) hd]
      exact hat
    case scheduling | running =>
      rw [Dispatcher.loop_of_thread (thread_of_mayTake hmay (by rw [hroutine]; rfl)) hd]
      exact hat.imp_right fun hmem ↦ hposted.subset hmem
    case flushing =>
      have hshutdown : a ≠ .shutdown := by
        rintro rfl
        cases hmay
      rcases Dispatcher.flushing_step hpost hat.1 hat.2.1 hshutdown hd with hflushing
        | ⟨hidle, hall⟩
      · have hne : d.loop ≠ .idle := fun hidle ↦ by simp [Dispatcher.Flushing, hidle] at hflushing
        simp only [hne, if_false]
        exact ⟨hflushing, hat.2.1.trans hposted, hat.2.2⟩
      · simp only [hidle, if_true]
        exact ⟨hall, hat.2.2⟩
    case looping => exact ⟨hat.1.trans hexecuted, hat.2⟩
    case inShutdown =>
      exact ⟨(Dispatcher.shutdownPhase_kept hat.1 hd).1, hat.2.1.trans hexecuted, hat.2.2⟩
    case shuttingDown | resetting | finished =>
      rw [Dispatcher.loop_of_thread (thread_of_mayTake hmay (by rw [hroutine]; rfl)) hd]
      exact ⟨hat.1, hat.2.1.trans hexecuted, hat.2.2⟩
  · rw [hhandler]
    dsimp only
    split_ifs with hflush
    · simp [hflush.1]
    · rfl
  · intro hjoin
    dsimp only
    rw [if_neg fun hflush ↦ by simp [hjoined hjoin] at hflush]
    exact hjoined hjoin

/-- Every step keeps the invariant. -/
theorem Inv.step {cb : ℕ} {w w' : WorkerImpl ι} {a : WorkerAction ι} (hw : w.Inv cb)
    (h : workerStep cb a w = some w') : w'.Inv cb := by
  cases a with
  | start =>
    obtain ⟨hroutine, h⟩ := Option.ite_none_right_eq_some.1 h
    obtain rfl := Option.some.inj h
    obtain ⟨hpost, hat, hhandler, hjoined⟩ := hw
    rw [AtRoutine, hroutine] at hat
    rw [hroutine] at hhandler hjoined
    exact ⟨hpost, hat, by simpa using hhandler, by simpa using hjoined⟩
  | threadRoutine => exact hw.threadRoutine h
  | join =>
    obtain ⟨hroutine, h⟩ := Option.ite_none_right_eq_some.1 h
    obtain rfl := Option.some.inj h
    exact ⟨hw.post, hw.atRoutine, hw.handler, fun _ ↦ hroutine.1⟩
  | dispatcher a => exact hw.dispatcher h

/-- The invariant holds in every state that a run reaches. -/
theorem inv_of_reachable {cb : ℕ} {w : WorkerImpl ι} (hw : Reachable (workerStep cb) {} w) :
    w.Inv cb :=
  invariant_of_reachable (inv_init cb) (fun _ _ _ ↦ Inv.step) hw

/-- A step leaves the dispatcher alone or is one of its own steps. -/
theorem dispatcher_step {cb : ℕ} {w w' : WorkerImpl ι} {a : WorkerAction ι}
    (h : workerStep cb a w = some w') :
    w'.dispatcher = w.dispatcher ∨ ∃ b, dispatcherStep b w.dispatcher = some w'.dispatcher := by
  cases a with
  | start | join =>
    obtain ⟨-, h⟩ := Option.ite_none_right_eq_some.1 h
    exact .inl (Option.some.inj h ▸ rfl)
  | threadRoutine =>
    simp only [workerStep, WorkerImpl.threadRoutine] at h
    split at h
    · cases h
    · cases h
    · cases h
    · obtain ⟨d, hd, rfl⟩ := Option.map_eq_some_iff.1 h
      exact .inr ⟨_, hd⟩
    · obtain ⟨d, hd, rfl⟩ := Option.map_eq_some_iff.1 h
      exact .inr ⟨_, hd⟩
    · obtain ⟨d, hd, rfl⟩ := Option.map_eq_some_iff.1 h
      exact .inr ⟨_, hd⟩
    · obtain ⟨-, h⟩ := Option.ite_none_right_eq_some.1 h
      exact .inl (Option.some.inj h ▸ rfl)
    · obtain ⟨d, hd, rfl⟩ := Option.map_eq_some_iff.1 h
      exact .inr ⟨_, hd⟩
    · obtain ⟨-, h⟩ := Option.ite_none_right_eq_some.1 h
      exact .inl (Option.some.inj h ▸ rfl)
    · exact .inl (Option.some.inj h ▸ rfl)
  | dispatcher b =>
    obtain ⟨-, h⟩ := Option.ite_none_right_eq_some.1 h
    obtain ⟨d, hd, rfl⟩ := Option.map_eq_some_iff.1 h
    exact .inr ⟨b, hd⟩

omit [DecidableEq ι] in
/-- Callbacks are executed by the flush and by the loop. -/
theorem Inv.routine_of_executes {cb callback : ℕ} {w : WorkerImpl ι} {a : Action ι} (hw : w.Inv cb)
    (h : a.executes w.dispatcher = some callback) :
    w.routine = .flushing ∨ w.routine = .looping := by
  obtain ⟨callbacks, hloop⟩ := Dispatcher.exists_loop_of_executes h
  have hat := hw.atRoutine
  cases hroutine : w.routine <;> rw [AtRoutine, hroutine] at hat <;>
    simp only [hloop, reduceCtorEq, false_and, Dispatcher.shutdownPhase, Bool.false_eq_true] at hat
  case flushing => exact .inl rfl
  case looping => exact .inr rfl

/-- Something is executed only in the flush or in the loop. -/
theorem Inv.routine_of_executed {cb : ℕ} {w w' : WorkerImpl ι} {a : WorkerAction ι} (hw : w.Inv cb)
    (h : workerStep cb a w = some w') (hne : w'.dispatcher.executed ≠ w.dispatcher.executed) :
    w.routine = .flushing ∨ w.routine = .looping := by
  rcases dispatcher_step h with heq | ⟨b, hb⟩
  · exact absurd (heq ▸ rfl) hne
  · have hexecutes : b.executes w.dispatcher ≠ none := fun hnone ↦ hne (by
      rw [Dispatcher.executed_step hb, hnone, Option.toList_none, List.append_nil])
    obtain ⟨callback, hcallback⟩ := Option.ne_none_iff_exists'.1 hexecutes
    exact hw.routine_of_executes hcallback

/-- Nothing is executed when the routine has come to its end. -/
theorem Inv.executed_of_finished {cb : ℕ} {w w' : WorkerImpl ι} {as : List (WorkerAction ι)}
    (hw : w.Inv cb) (hfinished : w.routine = .finished)
    (hrun : run (workerStep cb) as w = some w') :
    w'.dispatcher.executed = w.dispatcher.executed := by
  refine (invariant_of_run (I := fun v ↦ v.Inv cb ∧ v.routine = .finished ∧
    v.dispatcher.executed = w.dispatcher.executed) (fun a v v' hv h ↦ ?_) hrun
    ⟨hw, hfinished, rfl⟩).2.2
  obtain ⟨hinv, hroutine, hexecuted⟩ := hv
  have hinv' := hinv.step h
  have hsame : v'.dispatcher.executed = v.dispatcher.executed := by
    by_contra hne
    rcases hinv.routine_of_executed h hne with heq | heq <;> simp [hroutine] at heq
  refine ⟨hinv', hinv'.handler.1 ?_, hsame.trans hexecuted⟩
  have hnull := hinv.handler.2 hroutine
  cases a with
  | start =>
    obtain ⟨heq, -⟩ := Option.ite_none_right_eq_some.1 h
    simp [hroutine] at heq
  | threadRoutine => simp [workerStep, WorkerImpl.threadRoutine, hroutine] at h
  | join =>
    obtain ⟨-, h⟩ := Option.ite_none_right_eq_some.1 h
    exact Option.some.inj h ▸ hnull
  | dispatcher b =>
    obtain ⟨-, h⟩ := Option.ite_none_right_eq_some.1 h
    obtain ⟨d, -, rfl⟩ := Option.map_eq_some_iff.1 h
    exact hnull

omit [DecidableEq ι] in
/-- Behind the flush, what had been posted before it has been executed. -/
theorem Inv.flushed_of_pastFlush {cb : ℕ} {w : WorkerImpl ι} (hw : w.Inv cb)
    (h : w.routine.pastFlush = true) : cb ∈ w.flushed ∧ w.flushed <+: w.dispatcher.executed := by
  have hat := hw.atRoutine
  cases hroutine : w.routine <;> rw [hroutine] at h <;> rw [AtRoutine, hroutine] at hat
  case looping => exact ⟨hat.2, hat.1⟩
  case shuttingDown | inShutdown | resetting | finished => exact ⟨hat.2.2, hat.2.1⟩
  all_goals cases h

end WorkerImpl

/-- **A worker from start to join.** Before the event loop is entered, everything that had been
posted when the thread called `run` is executed, with the callback it was started with. A callback
is executed only while the connection handler is there. After the join it is gone and counts no
connections, the dispatcher is shut down, and whatever is posted from then on is never executed. -/
theorem worker_lifecycle [DecidableEq ι] {cb : ℕ} {w : WorkerImpl ι}
    (hw : Reachable (workerStep cb) {} w) :
    (w.routine.pastFlush = true → cb ∈ w.flushed ∧ w.flushed <+: w.dispatcher.executed) ∧
      (∀ a w', workerStep cb a w = some w' → w'.dispatcher.executed ≠ w.dispatcher.executed →
        w.handler = true) ∧
      (w.joined = true → w.handler = false ∧ w.dispatcher.loop = .down ∧
        (∀ n, w.numConnections n = 0) ∧
        ∀ as w', run (workerStep cb) as w = some w' →
          w'.dispatcher.executed = w.dispatcher.executed) := by
  have hinv := WorkerImpl.inv_of_reachable hw
  refine ⟨hinv.flushed_of_pastFlush, fun a w' h hne ↦ ?_, fun hjoined ↦ ?_⟩
  · rw [← Bool.not_eq_false, hinv.handler]
    intro hfinished
    rcases hinv.routine_of_executed h hne with heq | heq <;> simp [hfinished] at heq
  · have hfinished := hinv.joined hjoined
    have hnull := hinv.handler.2 hfinished
    have hat := hinv.atRoutine
    rw [WorkerImpl.AtRoutine, hfinished] at hat
    refine ⟨hnull, hat.1, fun n ↦ ?_, fun as w' hrun ↦ hinv.executed_of_finished hfinished hrun⟩
    rw [WorkerImpl.numConnections, hnull]
    rfl

/-- A listener is posted before the thread starts, and a callback after it has ended. -/
def addedAndStopped : List (WorkerAction Bool) :=
  [.dispatcher (.postAppend (some true) 1), .dispatcher (.postSchedule (some true)), .start,
    .threadRoutine, .threadRoutine, .threadRoutine, .dispatcher .postClear, .dispatcher .postTake,
    .dispatcher .postExecute, .dispatcher .postExecute, .dispatcher .postReturn, .threadRoutine,
    .threadRoutine, .dispatcher .shutdownTake, .dispatcher .shutdownReturn, .threadRoutine,
    .threadRoutine, .join, .dispatcher (.postAppend (some true) 2)]

theorem worker_lifecycle_addedAndStopped :
    ∃ w, run (workerStep 0) addedAndStopped {} = some w ∧ w.flushed <+: w.dispatcher.executed ∧
      w.handler = false := by
  obtain ⟨w, hw, hpast, hjoined⟩ : ∃ w, run (workerStep 0) addedAndStopped {} = some w ∧
      w.routine.pastFlush = true ∧ w.joined = true :=
    ⟨_, rfl, rfl, rfl⟩
  have hreach : Reachable (workerStep 0) {} w := ⟨addedAndStopped, hw⟩
  exact ⟨w, hw, ((worker_lifecycle hreach).1 hpast).2, ((worker_lifecycle hreach).2.2 hjoined).1⟩

end TcpServer.Server
