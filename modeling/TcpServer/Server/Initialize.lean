import TcpServer.Server.WorkerThread
import TcpServer.Server.WorkerStartup
import Mathlib.Logic.Equiv.Fin.Basic

/-!
# The start of the server

`Server::initialize` adds the listeners and starts the workers; `Server::run` posts the notification
of the stage `Startup` and runs the dispatcher of the main thread. Here both are put on top of the
dispatchers: the main thread posts to the dispatchers of the workers, whose threads run
`threadRoutine`, and each of these posts to the dispatcher of the main thread once a listener is
added.

`Startup` has a plain queue in the place of each dispatcher, and its steps are whole calls. Every
step of the dispatchers, of any thread, is one of its steps or none (`startup_step`): an append
under the lock is the call, and the batches, the pending flags and the halves of calls cannot be
seen.

What else these threads post in the meantime has other numbers than the callbacks of the start, and
there may be any amount of it.

Whether `addListener` of the connection handler has a result is left open here: every addition is
followed by its report. The runs are therefore those of the source and those that go on where the
source has dereferenced a null pointer, and what holds in all of them holds in the former.
-/

namespace TcpServer.Server

open Machine Event

variable {W L : ℕ}

/-! ### Callbacks

A number stands for a callback. On a dispatcher of a worker the smaller ones are those of the start,
and so they are on that of the main thread; any number behind them is a callback of somebody else,
of which nothing is known.
-/

/-- A thread, as the dispatchers see it that are not its own. -/
inductive ServerThread (W : ℕ)
  | main
  | worker (worker : Fin W)
deriving DecidableEq

/-- The callbacks of a worker's dispatcher are numbered: the additions by their listeners, and the
callback that the thread was started with by the number of listeners. -/
def workerTask (L callback : ℕ) : Option (WorkerTask L) :=
  if h : callback < L then some (.addListener ⟨callback, h⟩)
  else if callback = L then some .workerStartedRunning else none

/-- The same for the main thread: the reports by the pairs, and the notification comes behind
them. -/
inductive MainTask (W L : ℕ)
  | report (p : Fin W × Fin L)
  | notifyStartup

/-- What a callback of the main thread's dispatcher is, if it is one of the start. -/
def mainTask (W L callback : ℕ) : Option (MainTask W L) :=
  if h : callback < W * L then some (.report (finProdFinEquiv.symm ⟨callback, h⟩))
  else if callback = W * L then some .notifyStartup else none

/-- The report that a callback of the main thread's dispatcher is, if it is one. -/
def reportOf (W L callback : ℕ) : Option (Fin W × Fin L) :=
  if h : callback < W * L then some (finProdFinEquiv.symm ⟨callback, h⟩) else none

theorem workerTask_addListener (l : Fin L) : workerTask L l = some (.addListener l) := by
  rw [workerTask, dif_pos l.isLt]

theorem workerTask_workerStartedRunning : workerTask L L = some .workerStartedRunning := by
  rw [workerTask, dif_neg (Nat.lt_irrefl L), if_pos rfl]

theorem reportOf_number (p : Fin W × Fin L) : reportOf W L (finProdFinEquiv p) = some p := by
  rw [reportOf, dif_pos (finProdFinEquiv p).isLt, Fin.eta, Equiv.symm_apply_apply]

theorem reportOf_notifyStartup : reportOf W L (W * L) = none := dif_neg (Nat.lt_irrefl _)

/-! ### The server -/

/-- Where the main thread is: what it is about to do, or what it is in. -/
inductive MainRoutine
  /-- In `initialize`. -/
  | initializing
  | posting
  | scheduling
  | running
  /-- In the `run` of its dispatcher, before `event_base_loop`. -/
  | flushing
  /-- In `event_base_loop`. -/
  | looping
deriving DecidableEq

/-- A worker and the listener that its thread has added and not yet reported. -/
structure RunningWorker (W L : ℕ) where
  /-- The worker, with its dispatcher and its thread. -/
  impl : WorkerImpl (ServerThread W) := {}
  /-- The listener that was added and not yet reported. -/
  adding : Option (Fin L) := none

/-- The server. `program` is what `startWorkers` has still to do, and `invoked` counts the calls of
the callback it was given, which sets `workers_started_`. -/
structure ServerRun (W L : ℕ) where
  /-- Where the main thread is. -/
  routine : MainRoutine := .initializing
  /-- What `startWorkers` has still to do. -/
  program : List (MainOp W L)
  /-- The dispatcher of the main thread. -/
  dispatcher : Dispatcher (ServerThread W) := {}
  /-- The workers. -/
  workers : Fin W → RunningWorker W L := fun _ ↦ {}
  /-- The counter on which `startWorkers` waits for the threads. -/
  workersWaitingToRun : ℕ := W
  /-- `listeners_pending_init`. -/
  listenersPendingInit : UInt64
  /-- `workers_started_`. -/
  workersStarted : Bool := false
  /-- History: the additions, the reports that the main thread has run, and the calls of the
  callback. -/
  completed : List (Fin W × Fin L) := []
  /-- The reports that the main thread has run. -/
  reported : List (Fin W × Fin L) := []
  /-- How often the callback of `startWorkers` was called. -/
  invoked : ℕ := 0
  /-- History: what had been posted when the main thread called `run`. -/
  flushed : List ℕ := []
  /-- History: `workers_started_` as the notification of the stage found it. -/
  notified : Option Bool := none

/-- A step of some thread: of the main thread itself, of its dispatcher, of a worker's thread, of a
worker's dispatcher, or of a worker that reports its listener. -/
inductive ServerAction (W : ℕ)
  | main
  | mainDispatcher (a : Action (ServerThread W))
  | threadRoutine (worker : Fin W)
  | workerDispatcher (worker : Fin W) (a : Action (ServerThread W))
  | completion (worker : Fin W)

namespace ServerRun

/-- The state in which `initialize` calls `startWorkers`. -/
def initial (W L : ℕ) : ServerRun W L where
  program := (Startup.startWorkers W L).program
  listenersPendingInit := (Startup.startWorkers W L).listenersPendingInit

/-- The server with another worker in the place of `w`. -/
def setWorker (s : ServerRun W L) (w : Fin W) (worker : RunningWorker W L) : ServerRun W L :=
  { s with workers := Function.update s.workers w worker }

/-- The main thread is in `run` until `runPostCallbacks` has returned to it. -/
def setDispatcher (s : ServerRun W L) (dispatcher : Dispatcher (ServerThread W)) : ServerRun W L :=
  { s with
    dispatcher
    routine := if s.routine = .flushing ∧ dispatcher.loop = .idle then .looping else s.routine }

/-- The main thread is not between the two halves of a `post`. -/
def betweenCalls (s : ServerRun W L) : Bool :=
  decide (∀ w, (s.workers w).impl.dispatcher.caller (some .main) = .outside)

/-- What the main thread does next, in `initialize` and then in `run`. -/
def main (s : ServerRun W L) : Option (ServerRun W L) :=
  match s.routine with
  | .initializing =>
    if s.betweenCalls then
      match s.program with
      | .addListenerToWorker w l :: program =>
        (workerStep L (.dispatcher (.postAppend (some .main) l)) (s.workers w).impl).map fun impl ↦
          { s with program }.setWorker w { s.workers w with impl }
      | .start w :: program =>
        (workerStep L .start (s.workers w).impl).map fun impl ↦
          { s with program }.setWorker w { s.workers w with impl }
      | .wait :: program => if s.workersWaitingToRun = 0 then some { s with program } else none
      | [] => some { s with routine := .posting }
    else none
  | .posting =>
    (dispatcherStep (.postAppend none (W * L)) s.dispatcher).map fun dispatcher ↦
      { s with routine := .scheduling, dispatcher }
  | .scheduling =>
    (dispatcherStep (.postSchedule none) s.dispatcher).map fun dispatcher ↦
      { s with routine := .running, dispatcher }
  | .running =>
    (dispatcherStep .run s.dispatcher).map fun dispatcher ↦
      { s with routine := .flushing, dispatcher, flushed := s.dispatcher.posted }
  | .flushing | .looping => none

/-- Whether a step of the main dispatcher may be taken. The main thread posts what is not of the
start wherever it is, but its loop runs only in `run`. -/
def mayTake (s : ServerRun W L) (a : Action (ServerThread W)) : Bool :=
  match a with
  | .run | .shutdown => false
  | a => a.thread.isSome || s.routine = .flushing || s.routine = .looping ||
      (s.routine ≠ .scheduling && !a.ofLoop)

/-- The thread of a worker is not in the callback that adds a listener. -/
def mayGoOn (s : ServerRun W L) (w : Fin W) : Bool :=
  (s.workers w).adding.isNone && s.dispatcher.caller (some (.worker w)) = .outside

/-- What a callback of the main dispatcher does. -/
def runMain (s : ServerRun W L) : Option (MainTask W L) → ServerRun W L
  | some (.report p) =>
    let listenersPendingInit := s.listenersPendingInit - 1
    { s with
      listenersPendingInit
      reported := s.reported ++ [p]
      invoked := if listenersPendingInit = 0 then s.invoked + 1 else s.invoked
      workersStarted := s.workersStarted || listenersPendingInit = 0 }
  | some .notifyStartup => { s with notified := some s.workersStarted }
  | none => s

/-- What a callback of the dispatcher of `w` does, which leaves the worker itself at `impl`. A
listener is taken as added here, whether or not `addListener` of the handler has a result. -/
def runWorker (s : ServerRun W L) (w : Fin W) (impl : WorkerImpl (ServerThread W)) :
    Option (WorkerTask L) → ServerRun W L
  | some (.addListener l) =>
    { s with completed := s.completed ++ [(w, l)] }.setWorker w { impl, adding := some l }
  | some .workerStartedRunning =>
    { s with workersWaitingToRun := s.workersWaitingToRun - 1 }.setWorker w
      { s.workers w with impl }
  | none => s.setWorker w { s.workers w with impl }

end ServerRun

open ServerRun in
/-- One step of a thread of the server. -/
def serverStep : ServerAction W → ServerRun W L → Option (ServerRun W L)
  | .main, s => s.main
  | .mainDispatcher a, s =>
    if s.mayTake a ∧ ∀ cb ∈ a.appends, W * L < cb then
      (dispatcherStep a s.dispatcher).map fun dispatcher ↦
        (s.setDispatcher dispatcher).runMain ((a.executes s.dispatcher).bind (mainTask W L))
    else none
  | .threadRoutine w, s =>
    (workerStep L .threadRoutine (s.workers w).impl).map fun impl ↦
      s.setWorker w { s.workers w with impl }
  | .workerDispatcher w a, s =>
    if (a.ofLoop → s.mayGoOn w) ∧ ∀ cb ∈ a.appends, L < cb then
      (workerStep L (.dispatcher a) (s.workers w).impl).map fun impl ↦
        s.runWorker w impl ((a.executes (s.workers w).impl.dispatcher).bind (workerTask L))
    else none
  | .completion w, s =>
    match (s.workers w).adding with
    | none => none
    | some l =>
      (dispatcherStep (.postAppend (some (.worker w)) (finProdFinEquiv (w, l))) s.dispatcher).map
        fun dispatcher ↦ { s with dispatcher }.setWorker w { s.workers w with adding := none }

/-! ### The queues

A dispatcher is seen as the list of the callbacks in its batch and in its queue, in that order,
without those that are not of the start.
-/

/-- What a worker's thread is to the start. -/
def Routine.threadState : Routine → ThreadState
  | .notCreated => .notCreated
  | .posting => .created
  | _ => .dispatching

/-- A worker with a queue in the place of its dispatcher. -/
def RunningWorker.startup (worker : RunningWorker W L) : Worker L where
  thread := worker.impl.routine.threadState
  queue := worker.impl.dispatcher.queue.filterMap (workerTask L)
  adding := worker.adding

/-- The server with queues in the place of the dispatchers. -/
def ServerRun.startup (s : ServerRun W L) : Startup W L where
  program := s.program
  workers w := (s.workers w).startup
  workersWaitingToRun := s.workersWaitingToRun
  listenersPendingInit := s.listenersPendingInit
  mainQueue := s.dispatcher.queue.filterMap (reportOf W L)
  completed := s.completed
  reported := s.reported
  invoked := s.invoked

/-! ### What a step does to the queue of a worker

The additions and the callback that a thread is started with are executed in the order in which they
were posted, whatever else is between them.
-/

namespace RunningWorker

variable {worker : RunningWorker W L} {impl : WorkerImpl (ServerThread W)}
  {a : Action (ServerThread W)}

/-- A worker is seen through its thread and its queue. -/
theorem startup_mk {adding : Option (Fin L)} {thread : ThreadState} {queue : List (WorkerTask L)}
    (hthread : impl.routine.threadState = thread)
    (hqueue : impl.dispatcher.queue.filterMap (workerTask L) = queue) :
    ({ impl, adding } : RunningWorker W L).startup = { thread, queue, adding } := by
  rw [startup, hthread, hqueue]

theorem startup_of_start (h : workerStep L .start worker.impl = some impl) :
    ({ worker with impl } : RunningWorker W L).startup =
    { worker.startup with thread := .created } := by
  obtain ⟨-, h⟩ := Option.ite_none_right_eq_some.1 h
  obtain rfl := Option.some.inj h
  rfl

/-- A step of the dispatcher takes the first callback from the queue that it executes, and puts
those that it posts behind the others. -/
theorem startup_of_dispatcher (hw : worker.impl.Inv L)
    (h : workerStep L (.dispatcher a) worker.impl = some impl) :
    impl.routine.threadState = worker.startup.thread ∧
      ((a.executes worker.impl.dispatcher).bind (workerTask L)).toList ++
          impl.dispatcher.queue.filterMap (workerTask L) =
        worker.startup.queue ++ a.appends.filterMap (workerTask L) := by
  obtain ⟨-, h⟩ := Option.ite_none_right_eq_some.1 h
  obtain ⟨d, hd, rfl⟩ := Option.map_eq_some_iff.1 h
  refine ⟨?_, Dispatcher.filterMap_queue_step (workerTask L) hw.post hd⟩
  show Routine.threadState _ = Routine.threadState _
  dsimp only
  split_ifs with hflush
  · rw [hflush.1]
    rfl
  · rfl

/-- The routine posts the callback it was started with, and nothing else. -/
theorem startup_of_threadRoutine (hw : worker.impl.Inv L)
    (h : workerStep L .threadRoutine worker.impl = some impl) :
    worker.startup.thread = .created ∧
        ({ worker with impl } : RunningWorker W L).startup = { worker.startup with
          thread := .dispatching, queue := worker.startup.queue ++ [.workerStartedRunning] } ∨
      ({ worker with impl } : RunningWorker W L).startup = worker.startup := by
  have hqueue {b : Action (ServerThread W)} {d : Dispatcher (ServerThread W)}
      (hd : dispatcherStep b worker.impl.dispatcher = some d)
      (hexecutes : b.executes worker.impl.dispatcher = none) :
      d.queue.filterMap (workerTask L) = worker.startup.queue ++
        b.appends.filterMap (workerTask L) := by
    have hstep := Dispatcher.filterMap_queue_step (workerTask L) hw.post hd
    rw [hexecutes] at hstep
    exact hstep
  have hsame (heq : impl.routine.threadState = worker.impl.routine.threadState)
      (hqueue : impl.dispatcher.queue.filterMap (workerTask L) = worker.startup.queue ++ []) :
      ({ worker with impl } : RunningWorker W L).startup = worker.startup := by
    rw [List.append_nil] at hqueue
    rw [startup, startup, heq]
    exact congrArg (fun queue ↦ Worker.mk _ queue _) hqueue
  simp only [workerStep, WorkerImpl.threadRoutine] at h
  split at h
  · cases h
  · cases h
  · cases h
  · rename_i hroutine
    obtain ⟨d, hd, rfl⟩ := Option.map_eq_some_iff.1 h
    refine .inl ⟨by rw [startup, hroutine]; rfl, ?_⟩
    have hposted := hqueue hd rfl
    rw [Action.appends, List.filterMap_cons, workerTask_workerStartedRunning] at hposted
    rw [startup]
    exact congrArg (fun queue ↦ Worker.mk _ queue _) hposted
  · rename_i hroutine
    obtain ⟨d, hd, rfl⟩ := Option.map_eq_some_iff.1 h
    exact .inr (hsame (by rw [hroutine]; rfl) (hqueue hd rfl))
  · rename_i hroutine
    obtain ⟨d, hd, rfl⟩ := Option.map_eq_some_iff.1 h
    exact .inr (hsame (by rw [hroutine]; rfl) (hqueue hd rfl))
  · rename_i hroutine
    obtain ⟨-, h⟩ := Option.ite_none_right_eq_some.1 h
    obtain rfl := Option.some.inj h
    exact .inr (hsame (by rw [hroutine]; rfl) (List.append_nil _).symm)
  · rename_i hroutine
    obtain ⟨d, hd, rfl⟩ := Option.map_eq_some_iff.1 h
    exact .inr (hsame (by rw [hroutine]; rfl) (hqueue hd rfl))
  · rename_i hroutine
    obtain ⟨-, h⟩ := Option.ite_none_right_eq_some.1 h
    obtain rfl := Option.some.inj h
    exact .inr (hsame (by rw [hroutine]; rfl) (List.append_nil _).symm)
  · rename_i hroutine
    obtain rfl := Option.some.inj h
    exact .inr (hsame (by rw [hroutine]; rfl) (List.append_nil _).symm)

end RunningWorker

namespace ServerRun

variable {s s' : ServerRun W L} {w : Fin W}

/-- Changing a worker changes it among the queues. -/
theorem startup_setWorker (s : ServerRun W L) (w : Fin W) (worker : RunningWorker W L) :
    (s.setWorker w worker).startup = s.startup.setWorker w worker.startup := by
  have hworkers : (fun w' ↦ (Function.update s.workers w worker w').startup) =
      Function.update (fun w' ↦ (s.workers w').startup) w worker.startup := by
    funext w'
    obtain rfl | hne := eq_or_ne w' w
    · rw [Function.update_self, Function.update_self]
    · rw [Function.update_of_ne hne, Function.update_of_ne hne]
  rw [startup, setWorker, Startup.setWorker, startup, hworkers]

/-- It changes nothing there if it looks the same. -/
theorem startup_setWorker_self (s : ServerRun W L) (w : Fin W) {worker : RunningWorker W L}
    (h : worker.startup = (s.workers w).startup) : (s.setWorker w worker).startup = s.startup := by
  rw [startup_setWorker, h]
  exact congrArg (fun workers ↦ { s.startup with workers }) (Function.update_eq_self w _)

/-! ### The invariant

The dispatchers keep their own invariants, and once the main thread has left `initialize` there is
nothing left to do of `startWorkers`.
-/

/-- What holds in every state of the server. -/
structure Inv (s : ServerRun W L) : Prop where
  /-- The dispatcher of the main thread loses nothing. -/
  post : s.dispatcher.PostInv
  /-- The workers keep their invariant. -/
  workers : ∀ w, (s.workers w).impl.Inv L
  /-- Outside `initialize`, `startWorkers` has returned. -/
  program : s.routine ≠ .initializing → s.program = []

theorem inv_initial (W L : ℕ) : (initial W L).Inv :=
  ⟨Dispatcher.postInv_init, fun _ ↦ WorkerImpl.inv_init L, fun h ↦ absurd rfl h⟩

theorem forall_setWorker {P : WorkerImpl (ServerThread W) → Prop} {worker : RunningWorker W L}
    (hs : ∀ w, P (s.workers w).impl) (hworker : P worker.impl) (w' : Fin W) :
    P ((s.setWorker w worker).workers w').impl := by
  rw [setWorker]
  dsimp only
  rw [Function.update_apply]
  split_ifs
  · exact hworker
  · exact hs w'

theorem forall_runWorker {P : WorkerImpl (ServerThread W) → Prop}
    {impl : WorkerImpl (ServerThread W)}
    (hs : ∀ w, P (s.workers w).impl) (himpl : P impl) (task : Option (WorkerTask L)) (w' : Fin W) :
    P ((s.runWorker w impl task).workers w').impl := by
  have hworker (adding : Option (Fin L)) : P (⟨impl, adding⟩ : RunningWorker W L).impl := himpl
  match task with
  | some (.addListener l) => exact forall_setWorker hs (hworker (some l)) w'
  | some .workerStartedRunning | none => exact forall_setWorker hs (hworker (s.workers w).adding) w'

/-- **What a step can do.** -/
inductive Step (s : ServerRun W L) : ServerAction W → ServerRun W L → Prop
  | addListenerToWorker {w l program impl} (hroutine : s.routine = .initializing)
    (hprogram : s.program = .addListenerToWorker w l :: program)
    (himpl : workerStep L (.dispatcher (.postAppend (some .main) l)) (s.workers w).impl =
      some impl) :
    Step s .main ({ s with program }.setWorker w { s.workers w with impl })
  | start {w program impl} (hroutine : s.routine = .initializing)
      (hprogram : s.program = .start w :: program)
    (himpl : workerStep L .start (s.workers w).impl = some impl) :
    Step s .main ({ s with program }.setWorker w { s.workers w with impl })
  | wait {program} (hroutine : s.routine = .initializing) (hprogram : s.program = .wait :: program)
    (hlatch : s.workersWaitingToRun = 0) : Step s .main { s with program }
  | started (hroutine : s.routine = .initializing) (hprogram : s.program = []) :
    Step s .main { s with routine := .posting }
  | posting {dispatcher} (hroutine : s.routine = .posting)
    (hdispatcher : dispatcherStep (.postAppend none (W * L)) s.dispatcher = some dispatcher) :
    Step s .main { s with routine := .scheduling, dispatcher }
  | scheduling {dispatcher} (hroutine : s.routine = .scheduling)
    (hdispatcher : dispatcherStep (.postSchedule none) s.dispatcher = some dispatcher) :
    Step s .main { s with routine := .running, dispatcher }
  | running {dispatcher} (hroutine : s.routine = .running)
    (hdispatcher : dispatcherStep .run s.dispatcher = some dispatcher) :
    Step s .main { s with routine := .flushing, dispatcher, flushed := s.dispatcher.posted }
  | mainDispatcher {a dispatcher} (hmay : s.mayTake a = true)
      (hother : ∀ cb ∈ a.appends, W * L < cb)
    (hdispatcher : dispatcherStep a s.dispatcher = some dispatcher) :
    Step s (.mainDispatcher a)
      ((s.setDispatcher dispatcher).runMain ((a.executes s.dispatcher).bind (mainTask W L)))
  | threadRoutine {w impl} (himpl : workerStep L .threadRoutine (s.workers w).impl = some impl) :
    Step s (.threadRoutine w) (s.setWorker w { s.workers w with impl })
  | workerDispatcher {w a impl} (hgoOn : a.ofLoop = true → s.mayGoOn w = true)
    (hother : ∀ cb ∈ a.appends, L < cb)
    (himpl : workerStep L (.dispatcher a) (s.workers w).impl = some impl) :
    Step s (.workerDispatcher w a)
      (s.runWorker w impl ((a.executes (s.workers w).impl.dispatcher).bind (workerTask L)))
  | completion {w l dispatcher} (hadding : (s.workers w).adding = some l)
    (hdispatcher : dispatcherStep (.postAppend (some (.worker w)) (finProdFinEquiv (w, l)))
      s.dispatcher = some dispatcher) :
    Step s (.completion w) ({ s with dispatcher }.setWorker w { s.workers w with adding := none })

/-- Every step is one of these. -/
theorem Step.of_step {a : ServerAction W} (h : serverStep a s = some s') : Step s a s' := by
  cases a with
  | main =>
    simp only [serverStep, main] at h
    split at h
    · rename_i hroutine
      obtain ⟨-, h⟩ := Option.ite_none_right_eq_some.1 h
      split at h
      · obtain ⟨impl, himpl, rfl⟩ := Option.map_eq_some_iff.1 h
        exact .addListenerToWorker hroutine ‹_› himpl
      · obtain ⟨impl, himpl, rfl⟩ := Option.map_eq_some_iff.1 h
        exact .start hroutine ‹_› himpl
      · obtain ⟨hlatch, h⟩ := Option.ite_none_right_eq_some.1 h
        exact Option.some.inj h ▸ .wait hroutine ‹_› hlatch
      · exact Option.some.inj h ▸ .started hroutine ‹_›
    · obtain ⟨dispatcher, hdispatcher, rfl⟩ := Option.map_eq_some_iff.1 h
      exact .posting ‹_› hdispatcher
    · obtain ⟨dispatcher, hdispatcher, rfl⟩ := Option.map_eq_some_iff.1 h
      exact .scheduling ‹_› hdispatcher
    · obtain ⟨dispatcher, hdispatcher, rfl⟩ := Option.map_eq_some_iff.1 h
      exact .running ‹_› hdispatcher
    · cases h
    · cases h
  | mainDispatcher a =>
    obtain ⟨⟨hmay, hother⟩, h⟩ := Option.ite_none_right_eq_some.1 h
    obtain ⟨dispatcher, hdispatcher, rfl⟩ := Option.map_eq_some_iff.1 h
    exact .mainDispatcher hmay hother hdispatcher
  | threadRoutine w =>
    obtain ⟨impl, himpl, rfl⟩ := Option.map_eq_some_iff.1 h
    exact .threadRoutine himpl
  | workerDispatcher w a =>
    obtain ⟨⟨hgoOn, hother⟩, h⟩ := Option.ite_none_right_eq_some.1 h
    obtain ⟨impl, himpl, rfl⟩ := Option.map_eq_some_iff.1 h
    exact .workerDispatcher hgoOn hother himpl
  | completion w =>
    simp only [serverStep] at h
    split at h
    · cases h
    · obtain ⟨dispatcher, hdispatcher, rfl⟩ := Option.map_eq_some_iff.1 h
      exact .completion ‹_› hdispatcher

/-- A callback of the main dispatcher touches only what the start counts. -/
theorem frame_runMain (s : ServerRun W L) (task : Option (MainTask W L)) :
    (s.runMain task).routine = s.routine ∧ (s.runMain task).program = s.program ∧
      (s.runMain task).dispatcher = s.dispatcher ∧ (s.runMain task).workers = s.workers := by
  match task with
  | some (.report p) | some .notifyStartup | none => exact ⟨rfl, rfl, rfl, rfl⟩

theorem frame_runWorker (s : ServerRun W L) (w : Fin W) (impl : WorkerImpl (ServerThread W))
    (task : Option (WorkerTask L)) :
    (s.runWorker w impl task).routine = s.routine ∧ (s.runWorker w impl task).program = s.program ∧
      (s.runWorker w impl task).dispatcher = s.dispatcher := by
  match task with
  | some (.addListener l) | some .workerStartedRunning | none => exact ⟨rfl, rfl, rfl⟩

/-- Every step keeps the invariant. -/
theorem Inv.step {a : ServerAction W} (hs : s.Inv) (h : Step s a s') : s'.Inv := by
  obtain ⟨hpost, hworkers, hprogram⟩ := hs
  cases h with
  | addListenerToWorker hroutine _ himpl | start hroutine _ himpl =>
    exact ⟨hpost, forall_setWorker hworkers ((hworkers _).step himpl),
      fun hne ↦ absurd hroutine hne⟩
  | wait hroutine => exact ⟨hpost, hworkers, fun hne ↦ absurd hroutine hne⟩
  | started _ hnil => exact ⟨hpost, hworkers, fun _ ↦ hnil⟩
  | posting hroutine hdispatcher | scheduling hroutine hdispatcher | running hroutine hdispatcher =>
    exact ⟨Dispatcher.postInv_step hpost hdispatcher, hworkers, fun _ ↦
      hprogram (by rw [hroutine]; decide)⟩
  | @mainDispatcher a dispatcher _ _ hdispatcher =>
    obtain ⟨hroutine', hprogram', hdispatcher', hworkers'⟩ :=
      frame_runMain (s.setDispatcher dispatcher) ((a.executes s.dispatcher).bind (mainTask W L))
    refine ⟨?_, ?_, ?_⟩
    · rw [hdispatcher']
      exact Dispatcher.postInv_step hpost hdispatcher
    · rw [hworkers']
      exact hworkers
    · rw [hroutine', hprogram']
      exact fun hne ↦ hprogram fun heq ↦ hne (by rw [setDispatcher, heq]; rfl)
  | threadRoutine himpl =>
    exact ⟨hpost, forall_setWorker hworkers ((hworkers _).step himpl), hprogram⟩
  | @workerDispatcher w a impl _ _ himpl =>
    obtain ⟨hroutine', hprogram', hdispatcher'⟩ := frame_runWorker s w impl
      ((a.executes (s.workers w).impl.dispatcher).bind (workerTask L))
    refine ⟨?_, forall_runWorker hworkers ((hworkers w).step himpl) _, ?_⟩
    · rw [hdispatcher']
      exact hpost
    · rw [hroutine', hprogram']
      exact hprogram
  | completion _ hdispatcher =>
    exact ⟨Dispatcher.postInv_step hpost hdispatcher, forall_setWorker hworkers (hworkers _),
      hprogram⟩

/-- The invariant holds in every state that a run reaches. -/
theorem inv_of_reachable (hs : Reachable serverStep (initial W L) s) : s.Inv :=
  invariant_of_reachable (inv_initial W L) (fun _ _ _ hinv h ↦ hinv.step (.of_step h)) hs

/-! ### The steps of the queues

Callbacks of others have numbers that stand for nothing here, so they are not in the queues. What is
left of a step is a call of `Startup`, or nothing.
-/

theorem filterMap_other {β : Type*} {f : ℕ → Option β} {n : ℕ} (hf : ∀ cb, n < cb → f cb = none)
    {l : List ℕ} (hl : ∀ cb ∈ l, n < cb) : l.filterMap f = [] :=
  List.filterMap_eq_nil_iff.2 fun cb hcb ↦ hf cb (hl cb hcb)

theorem workerTask_other {cb : ℕ} (h : L < cb) : workerTask L cb = none := by
  rw [workerTask, dif_neg (Nat.not_lt.2 h.le), if_neg h.ne']

theorem reportOf_other {cb : ℕ} (h : W * L < cb) : reportOf W L cb = none :=
  dif_neg (Nat.not_lt.2 h.le)

/-- What the main thread executes, to those who know the reports only. -/
theorem bind_reportOf (o : Option ℕ) : o.bind (reportOf W L) =
    match o.bind (mainTask W L) with
    | some (.report p) => some p
    | _ => none := by
  match o with
  | none => rfl
  | some cb =>
    rw [Option.bind_some, Option.bind_some, reportOf, mainTask]
    split_ifs <;> rfl

/-- The main thread executes callbacks in `run`. -/
theorem routine_of_executes {a : Action (ServerThread W)} {cb : ℕ} (hmay : s.mayTake a = true)
    (h : a.executes s.dispatcher = some cb) : s.routine ≠ .initializing := by
  obtain ⟨hloop, hthread⟩ := Dispatcher.ofLoop_of_executes h
  intro hroutine
  cases a <;> simp [mayTake, hroutine, hloop, hthread] at hmay

theorem adding_of_mayGoOn (h : s.mayGoOn w = true) : (s.workers w).adding = none := by
  rw [mayGoOn, Bool.and_eq_true] at h
  exact Option.isNone_iff_eq_none.1 h.1

/-- **A step of the server is a step of its queues**, or none. -/
theorem startup_step {a : ServerAction W} (hs : s.Inv) (h : serverStep a s = some s') :
    s'.startup = s.startup ∨ ∃ b, Startup.step b s.startup = some s'.startup := by
  obtain ⟨hpost, hworkers, hprogram⟩ := hs
  have hmain {b : Action (ServerThread W)} {d : Dispatcher (ServerThread W)}
      (hd : dispatcherStep b s.dispatcher = some d) (hexecutes : b.executes s.dispatcher = none) :
      d.queue.filterMap (reportOf W L) =
        s.startup.mainQueue ++ b.appends.filterMap (reportOf W L) := by
    have hstep := Dispatcher.filterMap_queue_step (reportOf W L) hpost hd
    rw [hexecutes] at hstep
    exact hstep
  cases Step.of_step h with
  | @addListenerToWorker w l program impl hroutine hop himpl =>
    refine .inr ⟨.main, ?_⟩
    obtain ⟨hthread, hqueue⟩ := RunningWorker.startup_of_dispatcher (hworkers w) himpl
    have hposted : impl.dispatcher.queue.filterMap (workerTask L) =
        (s.workers w).startup.queue ++ [.addListener l] := by
      rw [Action.appends, List.filterMap_cons, workerTask_addListener] at hqueue
      exact hqueue
    rw [startup_setWorker, RunningWorker.startup_mk hthread hposted]
    simp only [Startup.step, startup, hop]
    rfl
  | @start w program impl hroutine hop himpl =>
    refine .inr ⟨.main, ?_⟩
    rw [startup_setWorker, RunningWorker.startup_of_start himpl]
    simp only [Startup.step, startup, hop]
  | wait hroutine hop hlatch =>
    refine .inr ⟨.main, ?_⟩
    simp only [Startup.step, startup, hop, hlatch, if_true]
  | started => exact .inl rfl
  | posting hroutine hdispatcher =>
    have hposted := hmain hdispatcher rfl
    rw [Action.appends, List.filterMap_cons, reportOf_notifyStartup, List.filterMap_nil,
      List.append_nil] at hposted
    exact .inl (congrArg (fun mainQueue ↦ { s.startup with mainQueue }) hposted)
  | scheduling hroutine hdispatcher | running hroutine hdispatcher =>
    have hposted := (hmain hdispatcher rfl).trans (List.append_nil _)
    exact .inl (congrArg (fun mainQueue ↦ { s.startup with mainQueue }) hposted)
  | @mainDispatcher a d hmay hother hdispatcher =>
    have hqueue := Dispatcher.filterMap_queue_step (reportOf W L) hpost hdispatcher
    rw [filterMap_other (fun _ ↦ reportOf_other) hother, List.append_nil, bind_reportOf] at hqueue
    rcases htask : (a.executes s.dispatcher).bind (mainTask W L) with - | (p | -) <;>
      rw [htask] at hqueue
    · exact .inl (congrArg (fun mainQueue ↦ { s.startup with mainQueue }) hqueue)
    · -- a report is run
      obtain ⟨cb, hcb, -⟩ := Option.bind_eq_some_iff.1 htask
      have hstarted : s.startup.program = [] := hprogram (routine_of_executes hmay hcb)
      have hmainQueue : s.startup.mainQueue = p :: d.queue.filterMap (reportOf W L) := hqueue.symm
      refine .inr ⟨.main, ?_⟩
      have hreport : Startup.step .main s.startup = s.startup.report := by
        simp only [Startup.step, hstarted]
      rw [hreport, Startup.report, hmainQueue]
      rfl
    · exact .inl (congrArg (fun mainQueue ↦ { s.startup with mainQueue }) hqueue)
  | @threadRoutine w impl himpl =>
    rcases RunningWorker.startup_of_threadRoutine (hworkers w) himpl with ⟨hthread, heq⟩ | heq
    · refine .inr ⟨.threadRoutine w, ?_⟩
      rw [startup_setWorker, heq]
      exact if_pos hthread
    · exact .inl (startup_setWorker_self s w heq)
  | @workerDispatcher w a impl hgoOn hother himpl =>
    obtain ⟨hthread, hqueue⟩ := RunningWorker.startup_of_dispatcher (hworkers w) himpl
    rw [filterMap_other (fun _ ↦ workerTask_other) hother, List.append_nil] at hqueue
    have hready {cb : ℕ} (hcb : a.executes (s.workers w).impl.dispatcher = some cb) :
        (s.startup.workers w).thread = .dispatching ∧ (s.startup.workers w).adding = none := by
      refine ⟨?_, adding_of_mayGoOn (hgoOn (Dispatcher.ofLoop_of_executes hcb).1)⟩
      show (s.workers w).impl.routine.threadState = .dispatching
      rcases (hworkers w).routine_of_executes hcb with hroutine | hroutine <;> rw [hroutine] <;> rfl
    rcases htask : (a.executes (s.workers w).impl.dispatcher).bind (workerTask L)
      with - | (l | -) <;>
      rw [htask] at hqueue
    · exact .inl (startup_setWorker_self s w (RunningWorker.startup_mk hthread hqueue))
    · obtain ⟨cb, hcb, -⟩ := Option.bind_eq_some_iff.1 htask
      obtain ⟨hdispatching, hadding⟩ := hready hcb
      have htasks : (s.startup.workers w).queue =
          .addListener l :: impl.dispatcher.queue.filterMap (workerTask L) := hqueue.symm
      refine .inr ⟨.dispatch w, ?_⟩
      rw [runWorker, startup_setWorker, RunningWorker.startup_mk hthread rfl]
      simp only [Startup.step, hdispatching, hadding, htasks, and_self, if_true]
      rw [show (s.workers w).startup.thread = .dispatching from hdispatching]
      rfl
    · obtain ⟨cb, hcb, -⟩ := Option.bind_eq_some_iff.1 htask
      obtain ⟨hdispatching, hadding⟩ := hready hcb
      have htasks : (s.startup.workers w).queue =
          .workerStartedRunning :: impl.dispatcher.queue.filterMap (workerTask L) := hqueue.symm
      refine .inr ⟨.dispatch w, ?_⟩
      rw [runWorker, startup_setWorker, RunningWorker.startup_mk hthread rfl]
      simp only [Startup.step, hdispatching, hadding, htasks, and_self, if_true]
      rw [show (s.workers w).startup.thread = .dispatching from hdispatching,
        show (s.workers w).adding = none from hadding]
      rfl
  | @completion w l d hadding hdispatcher =>
    have hposted := hmain hdispatcher rfl
    rw [Action.appends, List.filterMap_cons, reportOf_number] at hposted
    refine .inr ⟨.completion w, ?_⟩
    rw [startup_setWorker]
    simp only [Startup.step, show (s.startup.workers w).adding = some l from hadding]
    exact congrArg (fun mainQueue ↦ some ({ s.startup with mainQueue }.setWorker w
      { (s.workers w).startup with adding := none })) hposted.symm

/-- What the server does in a run, its queues do in one of `Startup`. -/
theorem startup_of_run (hs : s.Inv) (h : Reachable serverStep s s') :
    Reachable Startup.step s.startup s'.startup :=
  reachable_of_map (I := Inv) (f := startup) hs (fun _ _ _ hinv h ↦ hinv.step (.of_step h))
    (fun _ _ _ hinv h ↦ startup_step hinv h) h

/-- **The server refines its queues.** In whatever order the threads take the steps of their posts
and of their loops, and whatever else is posted in between, the queues of the dispatchers are in a
state that `Startup` reaches. -/
theorem refines_queues (hs : Reachable serverStep (initial W L) s) :
    Reachable Startup.step (Startup.startWorkers W L) s.startup :=
  startup_of_run (inv_initial W L) hs

/-- The only worker of one. -/
def theWorker : Fin 1 := ⟨0, Nat.zero_lt_one⟩

/-- One worker has added the one listener, and has posted the report without having scheduled it. -/
def oneListener : List (ServerAction 1) :=
  [.main, .workerDispatcher theWorker (.postSchedule (some .main)), .main, .threadRoutine theWorker,
    .threadRoutine theWorker,
    .threadRoutine theWorker, .workerDispatcher theWorker .postClear,
      .workerDispatcher theWorker .postTake,
    .workerDispatcher theWorker .postExecute, .completion theWorker]

theorem refines_queues_oneListener : ∃ s, run serverStep oneListener (initial 1 1) = some s ∧
    s.startup.mainQueue = [(theWorker, theWorker)] ∧
      Reachable Startup.step (Startup.startWorkers 1 1) s.startup := by
  obtain ⟨s, hs, hqueue⟩ : ∃ s, run serverStep oneListener (initial 1 1) = some s ∧
      s.startup.mainQueue = [(theWorker, theWorker)] :=
    ⟨_, rfl, rfl⟩
  exact ⟨s, hs, hqueue, refines_queues ⟨oneListener, hs⟩⟩

end ServerRun

end TcpServer.Server
