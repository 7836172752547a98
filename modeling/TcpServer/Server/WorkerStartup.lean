import TcpServer.Lib.Machine
import Mathlib.Algebra.BigOperators.Fin
import Mathlib.Data.List.FinRange

/-!
# Starting the workers

`startWorkers` posts one `addListener` for each worker and active listener, starts the workers and
waits until their dispatchers run. The main thread then runs its own dispatcher, to which every
worker reports each addition it has completed; the report that counts `listeners_pending_init` down
to zero calls the callback.

A dispatcher is here the queue of the callbacks posted to it. The main thread runs those of its own
dispatcher only when `startWorkers` has returned, since it is the thread that is in it.

Where a pair of a worker and a listener is on its way — still to be posted, in the queue of the
worker, just added, in the queue of the main dispatcher, reported — is counted by `places`, which no
step changes (`places_step`). Every step does one of a known number of things (`work_step`), and as
long as there is something to do there is a step (`progress`), so every run can be completed.

The counter is a `uint64_t`. It starts at the number of pairs modulo its range, so the callback is
called once, with the last report, exactly if there is a pair and there are no more than `2 ^ 64`
(`startWorkers_completes_once_iff`).
-/

namespace TcpServer.Server

open Machine

/-- What the main thread does in `startWorkers`. -/
inductive MainOp (W L : ℕ)
  | addListenerToWorker (worker : Fin W) (listener : Fin L)
  | start (worker : Fin W)
  | wait
deriving DecidableEq

/-- A callback that is posted to a worker. -/
inductive WorkerTask (L : ℕ)
  | addListener (listener : Fin L)
  | workerStartedRunning
deriving DecidableEq

/-- A thread that was `created` has not entered the dispatch loop. -/
inductive ThreadState
  | notCreated
  | created
  | dispatching
deriving DecidableEq

/-- A worker. `adding` is the listener that was added and whose completion is to be called. -/
structure Worker (L : ℕ) where
  /-- Where the thread of the worker is. -/
  thread : ThreadState := .notCreated
  /-- The callbacks posted to the worker's dispatcher. -/
  queue : List (WorkerTask L) := []
  /-- The listener that was added and whose completion is to be called. -/
  adding : Option (Fin L) := none
deriving DecidableEq

/-- `program` is what `startWorkers` has still to do. `completed`, `reported` and `invoked` are the
history: the additions, the reports that the main dispatcher has run, and the calls of the
callback. -/
structure Startup (W L : ℕ) where
  /-- What `startWorkers` has still to do. -/
  program : List (MainOp W L)
  /-- The workers. -/
  workers : Fin W → Worker L := fun _ ↦ {}
  /-- The counter on which the main thread waits. -/
  workersWaitingToRun : ℕ := W
  /-- `listeners_pending_init`. -/
  listenersPendingInit : UInt64
  /-- The reports posted to the dispatcher of the main thread. -/
  mainQueue : List (Fin W × Fin L) := []
  /-- The pairs of a worker and a listener that it has added. -/
  completed : List (Fin W × Fin L) := []
  /-- The pairs whose reports the main thread has run. -/
  reported : List (Fin W × Fin L) := []
  /-- How often the callback was called. -/
  invoked : ℕ := 0

/-- A step of some thread: the main thread goes on, a worker's thread enters its loop, its
dispatcher runs a callback, or the completion of an addition is called. -/
inductive StartupAction (W : ℕ)
  | main
  | threadRoutine (worker : Fin W)
  | dispatch (worker : Fin W)
  | completion (worker : Fin W)

namespace Startup

variable {W L : ℕ}

/-- The state in which `startWorkers` is called. -/
def startWorkers (W L : ℕ) : Startup W L where
  program :=
    ((List.finRange L).flatMap fun listener ↦
      (List.finRange W).map (.addListenerToWorker · listener)) ++
    (List.finRange W).map .start ++ [.wait]
  listenersPendingInit := .ofNat (W * L)

/-- The state with another worker in the place of `w`. -/
def setWorker (s : Startup W L) (w : Fin W) (worker : Worker L) : Startup W L :=
  { s with workers := Function.update s.workers w worker }

@[simp] theorem setWorker_self (s : Startup W L) (w : Fin W) (worker : Worker L) :
    (s.setWorker w worker).workers w = worker :=
  Function.update_self ..

@[simp] theorem setWorker_of_ne (s : Startup W L) {w w' : Fin W} (h : w' ≠ w) (worker : Worker L) :
    (s.setWorker w worker).workers w' = s.workers w' :=
  Function.update_of_ne h ..

/-- The main dispatcher runs a report. -/
def report (s : Startup W L) : Option (Startup W L) :=
  match s.mainQueue with
  | [] => none
  | p :: mainQueue =>
    let listenersPendingInit := s.listenersPendingInit - 1
    some { s with
      mainQueue
      listenersPendingInit
      reported := s.reported ++ [p]
      invoked := if listenersPendingInit = 0 then s.invoked + 1 else s.invoked }

/-- One step. -/
def step (a : StartupAction W) (s : Startup W L) : Option (Startup W L) :=
  match a with
  | .main =>
    match s.program with
    | .addListenerToWorker w listener :: program =>
      let worker := s.workers w
      some ({ s with program }.setWorker w
        { worker with queue := worker.queue ++ [WorkerTask.addListener listener] })
    | .start w :: program =>
      some ({ s with program }.setWorker w { s.workers w with thread := .created })
    | .wait :: program => if s.workersWaitingToRun = 0 then some { s with program } else none
    | [] => s.report
  | .threadRoutine w =>
    let worker := s.workers w
    if worker.thread = .created then
      some (s.setWorker w { worker with
        thread := .dispatching, queue := worker.queue ++ [.workerStartedRunning] })
    else none
  | .dispatch w =>
    let worker := s.workers w
    if worker.thread = .dispatching ∧ worker.adding = none then
      match worker.queue with
      | [] => none
      | .addListener listener :: queue =>
        some ({ s with completed := s.completed ++ [(w, listener)] }.setWorker w
          { worker with queue, adding := some listener })
      | .workerStartedRunning :: queue =>
        some ({ s with workersWaitingToRun := s.workersWaitingToRun - 1 }.setWorker w
          { worker with queue })
    else none
  | .completion w =>
    let worker := s.workers w
    match worker.adding with
    | some listener =>
      some ({ s with mainQueue := s.mainQueue ++ [(w, listener)] }.setWorker w
        { worker with adding := none })
    | none => none

/-! ### What is promised

The callback is documented as the end of the initialization, so it is to be called, and not twice,
and not before everything has been added and reported.
-/

/-- The callback is called once, when everything has been reported. -/
structure StartedOnce (s : Startup W L) : Prop where
  /-- It is not called before everything has been added and reported. -/
  notBefore : 0 < s.invoked → ∀ p, p ∈ s.completed ∧ p ∈ s.reported
  /-- It is not called twice. -/
  atMostOnce : s.invoked ≤ 1
  /-- If there are listeners, it was called once everything was reported. -/
  afterReports : 0 < L → (∀ p, p ∈ s.reported) → s.invoked = 1
  /-- Without listeners, it was called when `startWorkers` has returned. -/
  withoutListeners : L = 0 → s.program = [] → s.invoked = 1

/-! ### Steps -/

/-- What a step can do. -/
inductive Step (s : Startup W L) : Startup W L → Prop
  | addListenerToWorker {w l program} (hprogram : s.program = .addListenerToWorker w l :: program) :
    Step s ({ s with program }.setWorker w
      { s.workers w with queue := (s.workers w).queue ++ [WorkerTask.addListener l] })
  | start {w program} (hprogram : s.program = .start w :: program) :
    Step s ({ s with program }.setWorker w { s.workers w with thread := .created })
  | wait {program} (hprogram : s.program = .wait :: program) (hlatch : s.workersWaitingToRun = 0) :
    Step s { s with program }
  | report {p mainQueue} (hprogram : s.program = []) (hqueue : s.mainQueue = p :: mainQueue) :
    Step s { s with
      mainQueue
      listenersPendingInit := s.listenersPendingInit - 1
      reported := s.reported ++ [p]
      invoked := if s.listenersPendingInit - 1 = 0 then s.invoked + 1 else s.invoked }
  | threadRoutine {w} (hthread : (s.workers w).thread = .created) :
    Step s (s.setWorker w { s.workers w with
      thread := .dispatching, queue := (s.workers w).queue ++ [.workerStartedRunning] })
  | addListener {w l queue} (hthread : (s.workers w).thread = .dispatching)
    (hadding : (s.workers w).adding = none)
    (hqueue : (s.workers w).queue = .addListener l :: queue) :
    Step s ({ s with completed := s.completed ++ [(w, l)] }.setWorker w
      { s.workers w with queue, adding := some l })
  | workerStartedRunning {w queue} (hthread : (s.workers w).thread = .dispatching)
    (hqueue : (s.workers w).queue = .workerStartedRunning :: queue) :
    Step s ({ s with workersWaitingToRun := s.workersWaitingToRun - 1 }.setWorker w
      { s.workers w with queue })
  | completion {w l} (hadding : (s.workers w).adding = some l) :
    Step s ({ s with mainQueue := s.mainQueue ++ [(w, l)] }.setWorker w
      { s.workers w with adding := none })

/-- Every step is one of these. -/
theorem Step.of_step {a : StartupAction W} {s s' : Startup W L} (h : step a s = some s') :
    Step s s' := by
  cases a with
  | main =>
    simp only [step] at h
    split at h
    · exact Option.some.inj h ▸ .addListenerToWorker ‹_›
    · exact Option.some.inj h ▸ .start ‹_›
    · split_ifs at h with hlatch
      exact Option.some.inj h ▸ .wait ‹_› hlatch
    · rw [Startup.report] at h
      split at h
      · exact nomatch h
      · exact Option.some.inj h ▸ .report ‹_› ‹_›
  | threadRoutine w =>
    simp only [step] at h
    split_ifs at h with hthread
    exact Option.some.inj h ▸ .threadRoutine hthread
  | dispatch w =>
    simp only [step] at h
    split_ifs at h with hworker
    split at h
    · exact nomatch h
    · exact Option.some.inj h ▸ .addListener hworker.1 hworker.2 ‹_›
    · exact Option.some.inj h ▸ .workerStartedRunning hworker.1 ‹_›
  | completion w =>
    simp only [step] at h
    split at h
    · exact Option.some.inj h ▸ .completion ‹_›
    · exact nomatch h

end Startup

variable {W L : ℕ}

/-! ### Where a pair is

The operations of `startWorkers`, the queues and the histories share the pairs. A step takes a pair
from one of them and puts it into another.
-/

/-- The additions of a listener that the worker has still to complete. -/
def Worker.places (worker : Worker L) (listener : Fin L) : ℕ :=
  worker.queue.count (.addListener listener) + if worker.adding = some listener then 1 else 0

/-- How often it has still to count down `workers_waiting_to_run`. -/
def Worker.starting (worker : Worker L) : ℕ :=
  worker.queue.count .workerStartedRunning + if worker.thread = .dispatching then 0 else 1

namespace Startup

/-- In how many of these places a pair is. -/
def places (s : Startup W L) (p : Fin W × Fin L) : ℕ :=
  s.program.count (.addListenerToWorker p.1 p.2) + (s.workers p.1).places p.2 +
    s.mainQueue.count p + s.reported.count p

/-- What a step does to one worker it does not do to another. -/
theorem places_setWorker (s : Startup W L) (w : Fin W) (worker : Worker L) (p : Fin W × Fin L) :
    ((s.setWorker w worker).workers p.1).places p.2 =
      if p.1 = w then worker.places p.2 else (s.workers p.1).places p.2 := by
  rw [setWorker]
  dsimp only
  rw [Function.update_apply]
  split_ifs <;> rfl

/-- A step of a worker that adds and completes nothing. -/
theorem places_setWorker_of_eq {s : Startup W L} {w : Fin W} {worker : Worker L}
    (h : ∀ l, worker.places l = (s.workers w).places l) (p : Fin W × Fin L) :
    (s.setWorker w worker).places p = s.places p := by
  rw [places, places, places_setWorker]
  dsimp only [setWorker]
  by_cases hw : p.1 = w
  · rw [if_pos hw, h, hw]
  · rw [if_neg hw]

/-- **A pair is moved, not lost and not doubled.** -/
theorem places_step {s s' : Startup W L} (h : Step s s') (p : Fin W × Fin L) :
    s'.places p = s.places p := by
  obtain ⟨w', l'⟩ := p
  cases h with
  -- from the program of the main thread to the queue of `w`
  | @addListenerToWorker w l program hprogram =>
    rw [places, places, places_setWorker, hprogram, List.count_cons]
    dsimp only [setWorker]
    obtain rfl | hw := eq_or_ne w' w
    · rw [if_pos rfl]
      simp only [Worker.places, List.count_append, List.count_singleton, beq_iff_eq,
        WorkerTask.addListener.injEq, MainOp.addListenerToWorker.injEq, true_and]
      omega
    · rw [if_neg hw]
      have hne : (MainOp.addListenerToWorker w l == .addListenerToWorker w' l') = false := by
        simp [Ne.symm hw]
      rw [hne, if_neg Bool.false_ne_true, Nat.add_zero]
  | @start w program hprogram =>
    rw [places_setWorker_of_eq, places, places, hprogram, List.count_cons_of_ne (by simp)]
    exact fun _ ↦ rfl
  | wait hprogram hlatch =>
    rw [places, places, hprogram, List.count_cons_of_ne (by simp)]
  -- from the queue of the main dispatcher to the reports
  | report hprogram hqueue =>
    rw [places, places, hqueue, List.count_cons, List.count_append, List.count_singleton]
    dsimp only
    omega
  | @threadRoutine w hthread =>
    refine places_setWorker_of_eq (fun l ↦ ?_) _
    simp only [Worker.places, List.count_append, List.count_singleton, beq_iff_eq, reduceCtorEq,
      if_false, Nat.add_zero]
  -- from the queue of `w` to what it is adding
  | @addListener w l queue hthread hadding hqueue =>
    rw [places, places, places_setWorker]
    dsimp only [setWorker]
    obtain rfl | hw := eq_or_ne w' w
    · rw [if_pos rfl]
      simp only [Worker.places, hqueue, hadding, List.count_cons, beq_iff_eq,
        WorkerTask.addListener.injEq, Option.some.injEq, reduceCtorEq, if_false]
      omega
    · rw [if_neg hw]
  | @workerStartedRunning w queue hthread hqueue =>
    rw [places_setWorker_of_eq]
    · rfl
    · intro l
      rw [Worker.places, Worker.places, hqueue, List.count_cons_of_ne (by simp)]
  -- from there to the queue of the main dispatcher
  | @completion w l hadding =>
    rw [places, places, places_setWorker]
    dsimp only [setWorker]
    rw [List.count_append, List.count_singleton]
    obtain rfl | hw := eq_or_ne w' w
    · rw [if_pos rfl]
      simp only [Worker.places, hadding, beq_iff_eq, Prod.mk.injEq, true_and, Option.some.injEq,
        reduceCtorEq, if_false]
      omega
    · rw [if_neg hw]
      have hne : ((w, l) == (w', l')) = false := by
        simp [Ne.symm hw]
      rw [hne, if_neg Bool.false_ne_true, Nat.add_zero]

/-- Every pair is posted once. -/
theorem nodup_posts (W L : ℕ) : ((List.finRange L).flatMap fun listener ↦
    (List.finRange W).map (MainOp.addListenerToWorker · listener)).Nodup := by
  refine List.nodup_flatMap.2 ⟨fun l _ ↦ (List.nodup_finRange W).map fun w w' h ↦ ?_, ?_⟩
  · exact (MainOp.addListenerToWorker.inj h).1
  · refine (List.nodup_finRange L).imp fun {l l'} hne op hop hop' ↦ hne ?_
    obtain ⟨w, -, rfl⟩ := List.mem_map.1 hop
    obtain ⟨w', -, h⟩ := List.mem_map.1 hop'
    exact (MainOp.addListenerToWorker.inj h).2.symm

/-- In the beginning every pair is to be posted, once. -/
theorem places_startWorkers (p : Fin W × Fin L) : (startWorkers W L).places p = 1 := by
  have hmem : MainOp.addListenerToWorker p.1 p.2 ∈ (List.finRange L).flatMap fun listener ↦
      (List.finRange W).map (MainOp.addListenerToWorker · listener) :=
    List.mem_flatMap.2 ⟨p.2, List.mem_finRange _, List.mem_map.2 ⟨p.1, List.mem_finRange _, rfl⟩⟩
  have hstart : ((List.finRange W).map (MainOp.start (L := L))).count
      (.addListenerToWorker p.1 p.2) = 0 := by
    refine List.count_eq_zero.2 fun h ↦ ?_
    obtain ⟨w, -, h⟩ := List.mem_map.1 h
    exact nomatch h
  have hwait : [MainOp.wait].count (.addListenerToWorker p.1 p.2) = 0 :=
    List.count_eq_zero.2 (by simp)
  rw [places, startWorkers]
  dsimp only
  rw [List.count_append, List.count_append, List.count_eq_one_of_mem (nodup_posts W L) hmem, hstart,
    hwait]
  rfl

/-! ### The counter

The callback is called when the counter becomes zero, which for a counter that wraps is not only at
its end.
-/

/-- How often the counter, which starts at `N`, has become zero after `r` reports. -/
def zeros (N : ℕ) : ℕ → ℕ
  | 0 => 0
  | r + 1 => zeros N r + if UInt64.ofNat N - UInt64.ofNat (r + 1) = 0 then 1 else 0

/-- The counter is zero when the number of reports is that of the pairs, modulo its range. -/
theorem sub_eq_zero_iff (N r : ℕ) :
    UInt64.ofNat N - UInt64.ofNat r = 0 ↔ N % 2 ^ 64 = r % 2 ^ 64 := by
  have hsub (a b : UInt64) : a - b = 0 ↔ a = b := by grind
  rw [hsub, ← UInt64.toNat_inj, UInt64.toNat_ofNat', UInt64.toNat_ofNat']

/-- A counter that does not wrap becomes zero with the last report. -/
theorem zeros_eq {N : ℕ} (hN : N ≤ 2 ^ 64) {r : ℕ} (hr : r ≤ N) :
    zeros N r = if r = N ∧ 0 < N then 1 else 0 := by
  induction r with
  | zero =>
    rw [zeros, if_neg (by omega)]
  | succ r ih =>
    have hlast : UInt64.ofNat N - UInt64.ofNat (r + 1) = 0 ↔ r + 1 = N := by
      rw [sub_eq_zero_iff]
      omega
    rw [zeros, ih (by omega), if_neg (by omega), Nat.zero_add]
    simp only [hlast]
    split_ifs <;> omega

/-- It becomes zero no less often with more reports. -/
theorem zeros_mono (N : ℕ) {r r' : ℕ} (h : r ≤ r') : zeros N r ≤ zeros N r' := by
  induction h with
  | refl => exact Nat.le_refl _
  | step _ ih => exact Nat.le_trans ih (Nat.le_add_right _ _)

/-- One that does becomes zero before. -/
theorem two_le_zeros {N : ℕ} (hN : 2 ^ 64 < N) : 2 ≤ zeros N N := by
  obtain ⟨r, rfl⟩ : ∃ r, N = r + 2 ^ 64 + 1 := ⟨N - 2 ^ 64 - 1, by omega⟩
  have hfirst : 1 ≤ zeros (r + 2 ^ 64 + 1) (r + 1) := by
    rw [zeros, if_pos ((sub_eq_zero_iff _ _).2 (by omega))]
    omega
  have hmono : zeros (r + 2 ^ 64 + 1) (r + 1) ≤ zeros (r + 2 ^ 64 + 1) (r + 2 ^ 64) :=
    zeros_mono _ (by omega)
  rw [zeros, if_pos ((sub_eq_zero_iff _ _).2 rfl)]
  omega

/-! ### The invariant

What is counted of the pairs, the threads and the two counters, together.
-/

/-- Nothing comes after `wait`. -/
def WaitsLast (program : List (MainOp W L)) : Prop :=
  program = [] ∨ ∃ before, program = before ++ [.wait] ∧ .wait ∉ before

/-- What holds in every state. -/
structure Inv (s : Startup W L) : Prop where
  /-- Every pair is in one place. -/
  places : ∀ p, s.places p = 1
  /-- What was reported, or is about to be, was added. -/
  completed : ∀ w l, (s.workers w).adding = some l ∨ (w, l) ∈ s.mainQueue ∨ (w, l) ∈ s.reported →
    (w, l) ∈ s.completed
  /-- The counter is the number of pairs less the reports, modulo its range. -/
  counter : s.listenersPendingInit = .ofNat (W * L) - .ofNat s.reported.length
  /-- The callback was called as often as the counter has become zero. -/
  invoked : s.invoked = zeros (W * L) s.reported.length
  /-- A thread is still to be started if and only if it does not exist. -/
  created : ∀ w, s.program.count (.start w) = if (s.workers w).thread = .notCreated then 1 else 0
  /-- The main thread waits for as many callbacks as there are still to come. -/
  latch : s.workersWaitingToRun = ∑ w, (s.workers w).starting
  /-- The wait is the last thing that `startWorkers` does. -/
  waitsLast : WaitsLast s.program

theorem WaitsLast.tail {op : MainOp W L} {program : List (MainOp W L)}
    (h : WaitsLast (op :: program)) : WaitsLast program := by
  rcases h with h | ⟨before, h, hbefore⟩
  · exact nomatch h
  · cases before with
    | nil => exact .inl (List.cons.inj h).2
    | cons op' before =>
      exact .inr ⟨before, (List.cons.inj h).2, fun hmem ↦ hbefore (List.mem_cons_of_mem _ hmem)⟩

theorem WaitsLast.eq_nil {program : List (MainOp W L)} (h : WaitsLast (.wait :: program)) :
    program = [] := by
  rcases h with h | ⟨before, h, hbefore⟩
  · exact nomatch h
  · cases before with
    | nil => exact (List.cons.inj h).2
    | cons op' before => exact absurd ((List.cons.inj h).1 ▸ List.mem_cons_self) hbefore

/-- How a sum over the workers changes with one of them. -/
theorem sum_update (workers : Fin W → Worker L) (w : Fin W) (worker : Worker L) (f : Worker L → ℕ) :
    ∑ w', f (Function.update workers w worker w') + f (workers w) =
      ∑ w', f (workers w') + f worker := by
  have hrest : ∑ w' ∈ Finset.univ.erase w, f (Function.update workers w worker w') =
      ∑ w' ∈ Finset.univ.erase w, f (workers w') :=
    Finset.sum_congr rfl fun w' hw' ↦ by rw [Function.update_of_ne (Finset.ne_of_mem_erase hw')]
  rw [← Finset.add_sum_erase _ _ (Finset.mem_univ w), hrest, Function.update_self,
    ← Finset.add_sum_erase Finset.univ (fun w' ↦ f (workers w')) (Finset.mem_univ w)]
  omega

variable {s s' : Startup W L}

/-- A step leaves the wait at the end. -/
theorem Inv.waitsLast_step (hs : s.Inv) (h : Step s s') : WaitsLast s'.program := by
  have hwaits := hs.waitsLast
  cases h with
  | addListenerToWorker hprogram | start hprogram | wait hprogram hlatch =>
    rw [hprogram] at hwaits
    exact hwaits.tail
  | report | threadRoutine | addListener | workerStartedRunning | completion => exact hwaits

/-- A report counts down, and calls the callback at zero. -/
theorem Inv.counter_step (hs : s.Inv) (h : Step s s') :
    s'.listenersPendingInit = .ofNat (W * L) - .ofNat s'.reported.length ∧
      s'.invoked = zeros (W * L) s'.reported.length := by
  cases h with
  | @report p mainQueue hprogram hqueue =>
    have hcounter : s.listenersPendingInit - 1 =
        .ofNat (W * L) - .ofNat (s.reported ++ [p]).length := by
      rw [hs.counter, List.length_append, List.length_singleton, UInt64.ofNat_add]
      grind
    refine ⟨hcounter, ?_⟩
    dsimp only
    rw [hcounter, hs.invoked, List.length_append, List.length_singleton, zeros]
    split_ifs <;> rfl
  | addListenerToWorker | start | wait | threadRoutine | addListener | workerStartedRunning
  | completion => exact ⟨hs.counter, hs.invoked⟩

/-- A thread is created by its `start`. -/
theorem Inv.created_step (hs : s.Inv) (h : Step s s') (w : Fin W) :
    s'.program.count (.start w) = if (s'.workers w).thread = .notCreated then 1 else 0 := by
  have hcreated := hs.created w
  cases h with
  | @addListenerToWorker w₁ l program hprogram =>
    rw [hprogram, List.count_cons_of_ne (by simp)] at hcreated
    refine hcreated.trans ?_
    obtain rfl | hw := eq_or_ne w w₁
    · rw [setWorker_self]
    · rw [setWorker_of_ne _ hw]
  | @start w₁ program hprogram =>
    rw [hprogram] at hcreated
    obtain rfl | hw := eq_or_ne w w₁
    · rw [setWorker_self, if_neg (by simp)]
      rw [List.count_cons_self] at hcreated
      show program.count (.start w) = 0
      split_ifs at hcreated
      omega
    · rw [List.count_cons_of_ne (by simpa using Ne.symm hw)] at hcreated
      rw [setWorker_of_ne _ hw]
      exact hcreated
  | wait hprogram hlatch =>
    rwa [hprogram, List.count_cons_of_ne (by simp)] at hcreated
  | report => exact hcreated
  | @threadRoutine w₁ hthread =>
    obtain rfl | hw := eq_or_ne w w₁
    · rw [hthread] at hcreated
      rw [setWorker_self]
      exact hcreated
    · rw [setWorker_of_ne _ hw]
      exact hcreated
  | @addListener w₁ _ _ hthread _ _ | @workerStartedRunning w₁ _ hthread _ | @completion w₁ _ _ =>
    refine hcreated.trans ?_
    obtain rfl | hw := eq_or_ne w w₁
    · rw [setWorker_self]
    · rw [setWorker_of_ne _ hw]

/-- The thread of `w` does not exist before `start` is called. -/
theorem Inv.notCreated_of_start (hs : s.Inv) {w : Fin W} {program : List (MainOp W L)}
    (hprogram : s.program = .start w :: program) : (s.workers w).thread = .notCreated := by
  have hw := hs.created w
  rw [hprogram, List.count_cons_self] at hw
  by_contra hne
  rw [if_neg hne] at hw
  omega

theorem Inv.latch_update (hs : s.Inv) (w : Fin W) {worker : Worker L}
    (h : worker.starting = (s.workers w).starting) :
    s.workersWaitingToRun = ∑ w', (Function.update s.workers w worker w').starting := by
  have hsum := sum_update s.workers w worker Worker.starting
  have hlatch := hs.latch
  omega

/-- Only the dispatch of `workerStartedRunning` counts down. -/
theorem Inv.latch_step (hs : s.Inv) (h : Step s s') :
    s'.workersWaitingToRun = ∑ w, (s'.workers w).starting := by
  have hlatch := hs.latch
  cases h with
  | @addListenerToWorker w l program hprogram =>
    refine hs.latch_update w ?_
    rw [Worker.starting, List.count_append, List.count_singleton]
    rfl
  | @start w program hprogram =>
    have hthread := hs.notCreated_of_start hprogram
    refine hs.latch_update w ?_
    rw [Worker.starting, Worker.starting, hthread]
    rfl
  | wait | report => exact hlatch
  | @threadRoutine w hthread =>
    refine hs.latch_update w ?_
    rw [Worker.starting, Worker.starting, hthread, List.count_append, List.count_singleton_self]
    rfl
  | @addListener w l queue hthread hadding hqueue =>
    refine hs.latch_update w ?_
    rw [Worker.starting, Worker.starting, hqueue, List.count_cons_of_ne (by simp)]
  | @workerStartedRunning w queue hthread hqueue =>
    have hsum := sum_update s.workers w { s.workers w with queue } Worker.starting
    -- `w` is still to count down, so the count is positive and does not stop at zero
    have hold : (s.workers w).starting = queue.count .workerStartedRunning + 1 := by
      rw [Worker.starting, hqueue, List.count_cons_self, if_pos hthread]
    have hnew : Worker.starting { s.workers w with queue } = queue.count .workerStartedRunning := by
      rw [Worker.starting, if_pos hthread]
      rfl
    show s.workersWaitingToRun - 1 = ∑ w', (Function.update s.workers w _ w').starting
    omega
  | @completion w l hadding =>
    exact hs.latch_update w rfl

/-- What is reported has been added before. -/
theorem Inv.completed_step (hs : s.Inv) (h : Step s s') {w : Fin W} {l : Fin L}
    (hmem : (s'.workers w).adding = some l ∨ (w, l) ∈ s'.mainQueue ∨ (w, l) ∈ s'.reported) :
    (w, l) ∈ s'.completed := by
  have hcompleted := hs.completed w l
  cases h with
  | @addListenerToWorker w₁ | @start w₁ | @threadRoutine w₁ | @workerStartedRunning w₁ =>
    refine hcompleted (hmem.imp_left fun hadding ↦ ?_)
    obtain rfl | hw := eq_or_ne w w₁
    · rwa [setWorker_self] at hadding
    · rwa [setWorker_of_ne _ hw] at hadding
  | wait => exact hcompleted hmem
  | @report p mainQueue hprogram hqueue =>
    refine hcompleted ?_
    rw [hqueue]
    rcases hmem with hadding | hmain | hreported
    · exact .inl hadding
    · exact .inr (.inl (List.mem_cons_of_mem _ hmain))
    · rcases List.mem_append.1 hreported with hreported | hp
      · exact .inr (.inr hreported)
      · exact .inr (.inl (List.mem_singleton.1 hp ▸ List.mem_cons_self))
  -- the listener has been added by the time the worker calls the completion
  | @addListener w₁ l₁ queue hthread hadding₁ hqueue =>
    refine List.mem_append.2 ?_
    rcases hmem with hadding | hmem
    · obtain rfl | hw := eq_or_ne w w₁
      · rw [setWorker_self] at hadding
        obtain rfl := Option.some.inj hadding
        exact .inr (List.mem_singleton.2 rfl)
      · rw [setWorker_of_ne _ hw] at hadding
        exact .inl (hcompleted (.inl hadding))
    · exact .inl (hcompleted (.inr hmem))
  | @completion w₁ l₁ hadding₁ =>
    refine hcompleted ?_
    rcases hmem with hadding | hmain | hreported
    · obtain rfl | hw := eq_or_ne w w₁
      · rw [setWorker_self] at hadding
        exact nomatch hadding
      · rw [setWorker_of_ne _ hw] at hadding
        exact .inl hadding
    · rcases List.mem_append.1 hmain with hmain | hp
      · exact .inr (.inl hmain)
      · obtain ⟨rfl, rfl⟩ := Prod.mk.inj (List.mem_singleton.1 hp)
        exact .inl hadding₁
    · exact .inr (.inr hreported)

/-- Every step keeps the invariant. -/
theorem Inv.step (hs : s.Inv) (h : Step s s') : s'.Inv where
  places p := (places_step h p).trans (hs.places p)
  completed _ _ := hs.completed_step h
  counter := (hs.counter_step h).1
  invoked := (hs.counter_step h).2
  created := hs.created_step h
  latch := hs.latch_step h
  waitsLast := hs.waitsLast_step h

theorem inv_startWorkers (W L : ℕ) : (startWorkers W L).Inv where
  places := places_startWorkers
  completed w l h := by
    rcases h with h | h | h
    · exact nomatch h
    · exact absurd h List.not_mem_nil
    · exact absurd h List.not_mem_nil
  counter := by
    show UInt64.ofNat (W * L) = .ofNat (W * L) - .ofNat 0
    grind
  invoked := rfl
  created w := by
    have hposts : ((List.finRange L).flatMap fun listener ↦
        (List.finRange W).map (MainOp.addListenerToWorker · listener)).count (.start w) = 0 := by
      refine List.count_eq_zero.2 fun h ↦ ?_
      obtain ⟨l, -, h⟩ := List.mem_flatMap.1 h
      obtain ⟨w', -, h⟩ := List.mem_map.1 h
      exact nomatch h
    have hnodup : ((List.finRange W).map (MainOp.start (L := L))).Nodup :=
      (List.nodup_finRange W).map fun w w' h ↦ MainOp.start.inj h
    rw [startWorkers]
    dsimp only
    rw [List.count_append, List.count_append, hposts,
      List.count_eq_one_of_mem hnodup (List.mem_map.2 ⟨w, List.mem_finRange w, rfl⟩)]
    rfl
  latch := by
    show W = ∑ _ : Fin W, 1
    rw [Finset.sum_const, Finset.card_univ, Fintype.card_fin, smul_eq_mul, Nat.mul_one]
  waitsLast := by
    refine .inr ⟨_, rfl, fun h ↦ ?_⟩
    rcases List.mem_append.1 h with h | h
    · obtain ⟨l, -, h⟩ := List.mem_flatMap.1 h
      obtain ⟨w, -, h⟩ := List.mem_map.1 h
      exact nomatch h
    · obtain ⟨w, -, h⟩ := List.mem_map.1 h
      exact nomatch h

/-- The invariant holds in every state that a run reaches. -/
theorem Inv.of_reachable (h : Reachable Startup.step (startWorkers W L) s) : s.Inv :=
  invariant_of_reachable (inv_startWorkers W L) (fun _ _ _ hs hstep ↦ hs.step (.of_step hstep)) h

/-! ### Counting the reports

A pair is in one place, so it is not reported twice, and when there are as many reports as pairs all
of them are there.
-/

/-- No pair is reported twice. -/
theorem Inv.nodup_reported (hs : s.Inv) : s.reported.Nodup := by
  refine List.nodup_iff_count_le_one.2 fun p ↦ ?_
  have hle : s.reported.count p ≤ s.places p := Nat.le_add_left ..
  exact hle.trans (hs.places p).le

/-- There are no more reports than pairs. -/
theorem Inv.length_reported_le (hs : s.Inv) : s.reported.length ≤ W * L := by
  have hcard := hs.nodup_reported.length_le_card
  rwa [Fintype.card_prod, Fintype.card_fin, Fintype.card_fin] at hcard

/-- Everything is reported when there are as many reports as pairs. -/
theorem Inv.forall_reported_iff (hs : s.Inv) :
    (∀ p, p ∈ s.reported) ↔ s.reported.length = W * L := by
  have hcard : Fintype.card (Fin W × Fin L) = W * L := by
    rw [Fintype.card_prod, Fintype.card_fin, Fintype.card_fin]
  rw [← hcard, ← List.toFinset_card_of_nodup hs.nodup_reported, Finset.card_eq_iff_eq_univ,
    Finset.eq_univ_iff_forall]
  simp only [List.mem_toFinset]

/-- Where the counter does not wrap and does not start at zero. -/
theorem Inv.startedOnce (hs : s.Inv) (hpos : 0 < W * L) (hle : W * L ≤ 2 ^ 64) : s.StartedOnce := by
  have hinvoked := hs.invoked
  rw [zeros_eq hle hs.length_reported_le] at hinvoked
  refine ⟨fun h ↦ ?_, ?_, fun _ hall ↦ ?_, fun hL ↦ ?_⟩
  · have hall : ∀ p, p ∈ s.reported := by
      rw [hs.forall_reported_iff]
      split_ifs at hinvoked with hr <;> omega
    exact fun p ↦ ⟨hs.completed p.1 p.2 (.inr (.inr (hall p))), hall p⟩
  · split_ifs at hinvoked <;> omega
  · rw [hinvoked, if_pos ⟨hs.forall_reported_iff.1 hall, hpos⟩]
  · rw [hL, Nat.mul_zero] at hpos
    omega

end Startup

/-! ### Every run can be completed

Each step takes one unit of what there is to do, and where something is to be done there is a step.
So a run of that length ends where nothing is left, and that is where everything has been reported.
-/

/-- The steps that an operation of `startWorkers` stands for. -/
def MainOp.work : MainOp W L → ℕ
  | addListenerToWorker _ _ => 4
  | start _ => 3
  | wait => 1

/-- The steps that a callback stands for. -/
def WorkerTask.work : WorkerTask L → ℕ
  | addListener _ => 3
  | workerStartedRunning => 1

/-- The steps that a worker has left. -/
def Worker.work (worker : Worker L) : ℕ :=
  (worker.queue.map WorkerTask.work).sum + (if worker.adding = none then 0 else 2) +
    if worker.thread = .created then 2 else 0

namespace Startup

variable {s s' : Startup W L}

/-- The number of steps until there is nothing left to do. -/
def work (s : Startup W L) : ℕ :=
  (s.program.map MainOp.work).sum + ∑ w, (s.workers w).work + s.mainQueue.length

/-- How the steps change with one worker. -/
theorem work_setWorker {t : Startup W L} {w : Fin W} {worker : Worker L} {a b c d : ℕ}
    (hworkers : t.workers = s.workers) (ht : t.work + a = s.work + b)
    (hw : worker.work + c = (s.workers w).work + d) (h : a + c = b + d + 1) :
    (t.setWorker w worker).work + 1 = s.work := by
  have hsum := sum_update t.workers w worker Worker.work
  have hset : (t.setWorker w worker).work + (t.workers w).work = t.work + worker.work := by
    rw [work, work, setWorker]
    dsimp only
    omega
  rw [hworkers] at hset
  omega

/-- **Every step is one of these.** -/
theorem Inv.work_step (hs : s.Inv) (h : Step s s') : s'.work + 1 = s.work := by
  cases h with
  | @addListenerToWorker w l program hprogram =>
    refine work_setWorker (a := 4) (b := 0) (c := 0) (d := 3) rfl ?_ ?_ rfl
    · rw [Startup.work, Startup.work, hprogram, List.map_cons, List.sum_cons, MainOp.work]
      dsimp only
      omega
    · rw [Worker.work, Worker.work, List.map_append, List.sum_append, List.map_singleton,
        List.sum_singleton, WorkerTask.work]
      dsimp only
      omega
  | @start w program hprogram =>
    have hthread := hs.notCreated_of_start hprogram
    refine work_setWorker (a := 3) (b := 0) (c := 0) (d := 2) rfl ?_ ?_ rfl
    · rw [Startup.work, Startup.work, hprogram, List.map_cons, List.sum_cons, MainOp.work]
      dsimp only
      omega
    · rw [Worker.work, Worker.work, hthread]
      rfl
  | wait hprogram hlatch =>
    rw [Startup.work, Startup.work, hprogram, List.map_cons, List.sum_cons, MainOp.work]
    dsimp only
    omega
  | report hprogram hqueue =>
    rw [Startup.work, Startup.work, hqueue, List.length_cons]
    dsimp only
    omega
  | @threadRoutine w hthread =>
    refine work_setWorker (a := 0) (b := 0) (c := 1) (d := 0) rfl rfl ?_ rfl
    simp only [Worker.work, hthread, List.map_append, List.sum_append, List.map_singleton,
      List.sum_singleton, WorkerTask.work, reduceCtorEq, if_false, if_true]
    omega
  | @addListener w l queue hthread hadding hqueue =>
    refine work_setWorker (a := 0) (b := 0) (c := 1) (d := 0) rfl rfl ?_ rfl
    rw [Worker.work, Worker.work, hqueue, hadding, List.map_cons, List.sum_cons, WorkerTask.work,
      if_neg (by simp), if_pos rfl]
    dsimp only
    omega
  | @workerStartedRunning w queue hthread hqueue =>
    refine work_setWorker (a := 0) (b := 0) (c := 1) (d := 0) rfl rfl ?_ rfl
    rw [Worker.work, Worker.work, hqueue, List.map_cons, List.sum_cons, WorkerTask.work]
    dsimp only
    omega
  | @completion w l hadding =>
    refine work_setWorker (a := 0) (b := 1) (c := 2) (d := 0) rfl ?_ ?_ rfl
    · rw [Startup.work, Startup.work, List.length_append, List.length_singleton]
      dsimp only
      omega
    · simp only [Worker.work, hadding, reduceCtorEq, if_false, if_true]
      omega

/-- A worker whose thread exists, and that has something to do, can do it. -/
theorem exists_step_of_worker {w : Fin W} (hthread : (s.workers w).thread ≠ .notCreated)
    (hwork : (s.workers w).thread = .created ∨ (s.workers w).adding ≠ none ∨
      (s.workers w).queue ≠ []) : ∃ a, (step a s).isSome := by
  rcases hadding : (s.workers w).adding with _ | l
  · rcases ht : (s.workers w).thread with _ | _ | _
    · exact absurd ht hthread
    · refine ⟨.threadRoutine w, ?_⟩
      simp only [step, ht, if_true]
      rfl
    · have hqueue : (s.workers w).queue ≠ [] := by
        rw [ht, hadding] at hwork
        rcases hwork with hwork | hwork | hwork
        · exact nomatch hwork
        · exact absurd rfl hwork
        · exact hwork
      obtain ⟨task, queue, hqueue⟩ := List.exists_cons_of_ne_nil hqueue
      cases task with
      | addListener l =>
        refine ⟨.dispatch w, ?_⟩
        simp only [step, ht, hadding, hqueue, and_self, if_true]
        rfl
      | workerStartedRunning =>
        refine ⟨.dispatch w, ?_⟩
        simp only [step, ht, hadding, hqueue, and_self, if_true]
        rfl
  · refine ⟨.completion w, ?_⟩
    simp only [step, hadding]
    rfl

theorem Inv.thread_ne (hs : s.Inv) {w : Fin W} (h : s.program.count (.start w) = 0) :
    (s.workers w).thread ≠ .notCreated := by
  intro hthread
  have hw := hs.created w
  rw [h, if_pos hthread] at hw
  omega

/-- **Progress.** -/
theorem Inv.exists_step (hs : s.Inv) (hwork : s.work ≠ 0) : ∃ a, (Startup.step a s).isSome := by
  rcases hprogram : s.program with _ | ⟨op, program⟩
  · rcases hqueue : s.mainQueue with _ | ⟨p, mainQueue⟩
    · -- All the work that is left is with the workers.
      have hsum : ∑ w, (s.workers w).work ≠ 0 := by
        rw [Startup.work, hprogram, hqueue, List.map_nil, List.sum_nil, List.length_nil] at hwork
        omega
      obtain ⟨w, -, hw⟩ := Finset.exists_ne_zero_of_sum_ne_zero hsum
      refine exists_step_of_worker (hs.thread_ne (w := w) (by rw [hprogram]; rfl)) ?_
      by_contra hidle
      push Not at hidle
      rw [Worker.work, if_neg hidle.1, if_pos hidle.2.1, hidle.2.2] at hw
      exact hw rfl
    · refine ⟨.main, ?_⟩
      simp only [Startup.step, hprogram, Startup.report, hqueue]
      rfl
  · cases op with
    | addListenerToWorker | start =>
      refine ⟨.main, ?_⟩
      simp only [Startup.step, hprogram]
      rfl
    | wait =>
      have hlast := hs.waitsLast
      rw [hprogram] at hlast
      obtain rfl := hlast.eq_nil
      by_cases hlatch : s.workersWaitingToRun = 0
      · refine ⟨.main, ?_⟩
        simp only [Startup.step, hprogram, hlatch, if_true]
        rfl
      · -- Some worker has not counted down yet.
        rw [hs.latch] at hlatch
        obtain ⟨w, -, hw⟩ := Finset.exists_ne_zero_of_sum_ne_zero hlatch
        have hnone : s.program.count (.start w) = 0 := by
          rw [hprogram]
          exact List.count_eq_zero.2 (by simp)
        have hthread := hs.thread_ne hnone
        refine exists_step_of_worker hthread ?_
        by_contra hidle
        push Not at hidle
        have hdispatching : (s.workers w).thread = .dispatching := by
          rcases ht : (s.workers w).thread with _ | _ | _
          · exact absurd ht hthread
          · exact absurd ht hidle.1
          · rfl
        rw [Worker.starting, hidle.2.2, if_pos hdispatching] at hw
        exact hw rfl

/-- Nothing is left to do: everything has been reported. -/
theorem Inv.reported_of_work (hs : s.Inv) (hwork : s.work = 0) :
    s.program = [] ∧ ∀ p, p ∈ s.reported := by
  have hsum : ∑ w, (s.workers w).work = 0 := by
    rw [Startup.work] at hwork
    omega
  have hprogram : s.program = [] := by
    rcases hop : s.program with _ | ⟨op, program⟩
    · rfl
    · rw [Startup.work, hop, List.map_cons, List.sum_cons] at hwork
      have hpos : 0 < op.work := by cases op <;> exact Nat.succ_pos _
      omega
  refine ⟨hprogram, fun p ↦ ?_⟩
  have hmain : s.mainQueue = [] := by
    rw [Startup.work] at hwork
    exact List.eq_nil_of_length_eq_zero (by omega)
  have hworker : (s.workers p.1).work = 0 := Finset.sum_eq_zero_iff.1 hsum p.1 (Finset.mem_univ _)
  have hqueue : (s.workers p.1).queue = [] := by
    rcases hq : (s.workers p.1).queue with _ | ⟨task, queue⟩
    · rfl
    · rw [Worker.work, hq, List.map_cons, List.sum_cons] at hworker
      have hpos : 0 < task.work := by cases task <;> exact Nat.succ_pos _
      omega
  have hadding : (s.workers p.1).adding = none := by
    by_contra hne
    rw [Worker.work, if_neg hne] at hworker
    omega
  have hp := hs.places p
  rw [Startup.places, hprogram, hmain, Worker.places, hqueue, hadding] at hp
  refine List.count_pos_iff.1 ?_
  simp only [List.count_nil, reduceCtorEq, if_false] at hp
  omega

/-- From every state there is a run to the end. -/
theorem Inv.exists_run (hs : s.Inv) :
    ∃ s', Reachable Startup.step s s' ∧ s'.Inv ∧ s'.work = 0 := by
  induction hn : s.work generalizing s with
  | zero => exact ⟨s, .refl _ s, hs, hn⟩
  | succ n ih =>
    obtain ⟨a, ha⟩ := hs.exists_step (by omega)
    obtain ⟨t, ht⟩ := Option.isSome_iff_exists.1 ha
    have hstep := Step.of_step ht
    have hwork := hs.work_step hstep
    obtain ⟨s', hreach, hs', hdone⟩ := ih (hs.step hstep) (by omega)
    exact ⟨s', (Reachable.tail _ (.refl _ s) ht).trans _ hreach, hs', hdone⟩

/-! ### When the callback is called once

Below the bound the invariant gives the promise. Without pairs the counter starts at zero and is
never counted down, and beyond the bound it becomes zero before the last report.
-/

/-- **Start-up completes exactly once**, in every run, if and only if there is a listener and the
product of the numbers fits the counter. -/
theorem startWorkers_completes_once_iff (hW : 0 < W) :
    (∀ s, Reachable step (startWorkers W L) s → s.StartedOnce) ↔ 0 < L ∧ W * L ≤ 2 ^ 64 := by
  constructor
  · intro h
    obtain ⟨s, hreach, hs, hdone⟩ := (inv_startWorkers W L).exists_run
    obtain ⟨hprogram, hall⟩ := hs.reported_of_work hdone
    have honce := h s hreach
    have hinvoked := hs.invoked
    rw [hs.forall_reported_iff.1 hall] at hinvoked
    refine ⟨Nat.pos_of_ne_zero fun hL ↦ ?_, Nat.le_of_not_lt fun hlt ↦ ?_⟩
    · -- The counter is never counted down.
      have hone := honce.withoutListeners hL hprogram
      have hzero : W * L = 0 := by rw [hL, Nat.mul_zero]
      rw [hzero, zeros] at hinvoked
      omega
    · have htwo := two_le_zeros hlt
      have hone := honce.atMostOnce
      omega
  · rintro ⟨hL, hle⟩ s hreach
    exact (Inv.of_reachable hreach).startedOnce (Nat.mul_pos hW hL) hle

theorem startWorkers_completes_once_iff_twoWorkers :
    2 * 3 ≤ 2 ^ 64 ∧ ∀ s, Reachable step (startWorkers 2 3) s → s.StartedOnce :=
  ⟨by decide, (startWorkers_completes_once_iff (by decide)).2 (by decide)⟩

/-- One worker and no listener: `startWorkers` returns, and the callback is never called. -/
theorem startWorkers_without_listeners :
    ¬ ∀ s, Reachable step (startWorkers 1 0) s → s.StartedOnce := by
  intro h
  have hrun : ∃ s, run step [.main, .threadRoutine 0, .dispatch 0, .main] (startWorkers 1 0) =
    some s ∧
      s.program = [] ∧ s.invoked = 0 := ⟨_, rfl, rfl, rfl⟩
  obtain ⟨s, hrun, hprogram, hinvoked⟩ := hrun
  have hone := (h s ⟨_, hrun⟩).withoutListeners rfl hprogram
  omega

end Startup

end TcpServer.Server
