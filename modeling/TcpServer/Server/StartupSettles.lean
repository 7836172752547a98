import TcpServer.Server.WorkerHandlers

/-!
# The start comes to an end

`startWorkers` blocks the main thread until every worker has run the callback it was started with,
and each worker posts to the main thread on its way there. That nobody waits for good is not seen
from the queues: a thread may be between the halves of a `post`, a dispatcher in the middle of a
pass, an event loop may return early and its worker shut down.

As long as nobody asks for anything new, the steps that the threads have left are finitely many
(`work_lt`). Where there is none left, the main thread is in its event loop (`Stuck.looping`):
wherever else it could be, somebody can go on. What it finds there was proved before
(`server_starts`).

All of this leaves open what `addListener` does in the thread of a worker, where nobody asks for its
result: the callback calls it and then the completion. The source does not always say what it does.
A configuration without listen sockets has no `listenSocketFactories()[0]`, and a dual-stack address
may have no compatible IPv4 address. With the handlers of the workers beside the server,
`definedStep` takes a step only if the call of `addListener` in it has a result, and the start comes
to its end if and only if there are results for all the active listeners, one behind the other
(`startup_settles`).
-/

namespace TcpServer.Server

open Machine Event

variable {ι : Type*} {W L : ℕ}

/-- The steps that a worker's thread has ahead of it, with those of the calls that it is still to
make. -/
def Routine.ahead : Routine → ℕ
  | .finished => 0
  | .resetting => 1
  | .inShutdown => 2
  | .shuttingDown => 6
  | .looping => 7
  | .flushing => 8
  | .running => 14
  | .scheduling => 15
  | .posting => 16
  | .notCreated => 17

/-- The steps that the main thread has ahead of it, with those of the calls that it is still to
make, but for what `startWorkers` does. -/
def MainRoutine.ahead : MainRoutine → ℕ
  | .looping => 0
  | .flushing => 1
  | .running => 7
  | .scheduling => 8
  | .posting => 18
  | .initializing => 19

instance (W : ℕ) : Fintype (ServerThread W) where
  elems := insert .main (Finset.univ.image .worker)
  complete t := by cases t <;> simp

/-- A step of what is under way in the server, which asks for nothing but its start. The event loop
of a worker may return. -/
def ServerAction.Continues : ServerAction W → Prop
  | .mainDispatcher a | .workerDispatcher _ a => a.Continues
  | .main | .threadRoutine _ | .completion _ => True

/-! ### The calls of a worker's own thread

A thread that is between the halves of a `post`, or in a pass, is so at some place of its routine.
To see that it can go on, its calls have to be known at each place, and that nobody else posts its
callback.
-/

namespace WorkerImpl

/-- What holds of the thread's own calls where the routine is, which posts `cb`. -/
def OwnCalls (cb : ℕ) (w : WorkerImpl ι) : Prop :=
  match w.routine with
  | .notCreated | .posting =>
    w.dispatcher.pass = none ∧ w.dispatcher.caller none = .outside ∧ cb ∉ w.dispatcher.posted
  | .scheduling => w.dispatcher.pass = none ∧ ∃ doPost, w.dispatcher.caller none = .posted doPost
  | .running => w.dispatcher.pass = none ∧ w.dispatcher.caller none = .outside
  | _ => True

/-- A worker whose callback nobody else posts. -/
structure Calls [DecidableEq ι] (cb : ℕ) (w : WorkerImpl ι) : Prop where
  /-- The worker keeps its invariant. -/
  inv : w.Inv cb
  /-- Its dispatcher is in a state that a run of the dispatcher reaches. -/
  reachable : Reachable dispatcherStep {} w.dispatcher
  /-- The callback of the thread is posted once at most. -/
  once : w.dispatcher.posted.count cb ≤ 1
  /-- The thread's own calls are those of the routine. -/
  own : w.OwnCalls cb

variable [DecidableEq ι] {cb : ℕ} {w w' : WorkerImpl ι} {a : Action ι}

theorem calls_init (cb : ℕ) : ({} : WorkerImpl ι).Calls cb :=
  ⟨inv_init cb, .refl _ _, Nat.zero_le 1, rfl, rfl, List.not_mem_nil⟩

/-- The thread is created with no calls under way. -/
theorem Calls.start (hw : w.Calls cb) (h : workerStep cb .start w = some w') : w'.Calls cb := by
  obtain ⟨hroutine, heq⟩ := Option.ite_none_right_eq_some.1 h
  obtain rfl := Option.some.inj heq
  have hown := hw.own
  rw [OwnCalls, hroutine] at hown
  exact ⟨hw.inv.step h, hw.reachable, hw.once, hown⟩

/-- A step of the dispatcher that does not post the callback keeps to this. -/
theorem Calls.dispatcher (hw : w.Calls cb) (hother : cb ∉ a.appends)
    (h : workerStep cb (.dispatcher a) w = some w') : w'.Calls cb := by
  have hinv := hw.inv.step h
  obtain ⟨hmay, h⟩ := Option.ite_none_right_eq_some.1 h
  obtain ⟨d, hd, rfl⟩ := Option.map_eq_some_iff.1 h
  have hcount : d.posted.count cb = w.dispatcher.posted.count cb := by
    rw [posted_step hd, List.count_append, List.count_eq_zero.2 hother, Nat.add_zero]
  refine ⟨hinv, hw.reachable.tail _ hd, hcount.trans_le hw.once, ?_⟩
  have hown := hw.own
  -- where the routine runs no code of others, it is another thread
  have hthread (hroutine : w.routine.runsCode = false) :
      d.pass = w.dispatcher.pass ∧ d.caller none = w.dispatcher.caller none :=
    Dispatcher.own_of_thread (thread_of_mayTake hmay hroutine) hd
  cases hroutine : w.routine <;> rw [OwnCalls, hroutine] at hown <;>
    simp only [OwnCalls, reduceCtorEq, false_and, if_false, true_and]
  case notCreated | posting =>
    obtain ⟨hpass, hcaller⟩ := hthread (by rw [hroutine]; rfl)
    rw [hpass, hcaller]
    refine hown.imp_right (And.imp_right fun hnot ↦ ?_)
    rw [← List.count_eq_zero, hcount, List.count_eq_zero]
    exact hnot
  case scheduling | running =>
    obtain ⟨hpass, hcaller⟩ := hthread (by rw [hroutine]; rfl)
    rw [hpass, hcaller]
    exact hown
  case flushing => split_ifs <;> trivial

/-- A step of the routine keeps to this. -/
theorem Calls.threadRoutine (hw : w.Calls cb) (h : w.threadRoutine cb = some w') : w'.Calls cb := by
  have hinv := hw.inv.threadRoutine h
  obtain ⟨-, hreach, honce, hown⟩ := hw
  rw [WorkerImpl.threadRoutine] at h
  cases hroutine : w.routine <;> rw [hroutine] at h <;> rw [OwnCalls, hroutine] at hown <;>
    dsimp only at h hown
  case notCreated | flushing | finished => cases h
  case posting =>
    obtain ⟨d, hd, rfl⟩ := Option.map_eq_some_iff.1 h
    refine ⟨hinv, hreach.tail _ hd, ?_, ?_⟩
    · show d.posted.count cb ≤ 1
      rw [posted_step hd, List.count_append, List.count_eq_zero.2 hown.2.2, Nat.zero_add]
      exact List.count_singleton_self.le
    · obtain ⟨-, heq⟩ := Option.ite_none_right_eq_some.1 hd
      obtain rfl := Option.some.inj heq
      exact ⟨hown.1, _, Function.update_self none _ w.dispatcher.caller⟩
  case scheduling =>
    obtain ⟨d, hd, rfl⟩ := Option.map_eq_some_iff.1 h
    have hposted : d.posted = w.dispatcher.posted := (posted_step hd).trans (List.append_nil _)
    obtain ⟨hpass, doPost, hcaller⟩ := hown
    refine ⟨hinv, hreach.tail _ hd, hposted ▸ honce, ?_⟩
    simp only [dispatcherStep, hcaller] at hd
    obtain rfl := Option.some.inj hd
    exact ⟨hpass, Function.update_self none _ w.dispatcher.caller⟩
  case running | shuttingDown =>
    obtain ⟨d, hd, rfl⟩ := Option.map_eq_some_iff.1 h
    have hposted : d.posted = w.dispatcher.posted := (posted_step hd).trans (List.append_nil _)
    exact ⟨hinv, hreach.tail _ hd, hposted ▸ honce, trivial⟩
  case looping | inShutdown =>
    obtain ⟨-, h⟩ := Option.ite_none_right_eq_some.1 h
    obtain rfl := Option.some.inj h
    exact ⟨hinv, hreach, honce, trivial⟩
  case resetting =>
    obtain rfl := Option.some.inj h
    exact ⟨hinv, hreach, honce, trivial⟩

/-- The callback is not posted again, so it is not in the queue once it has been executed. -/
theorem Calls.not_mem_queue (hw : w.Calls cb) (h : cb ∈ w.dispatcher.executed) :
    cb ∉ w.dispatcher.queue := by
  have honce := hw.once
  have hpos := List.count_pos_iff.2 h
  rw [hw.inv.post.posted_eq, List.count_append] at honce
  rw [← List.count_eq_zero]
  omega

/-! ### The steps a worker has left

The steps of the dispatcher are counted by its own measure, and the calls that the routine is still
to make are counted at the routine. Callbacks that are posted from outside cost their posts.
-/

/-- A routine counts with the calls it is still to make, but for the `post`. -/
def work [Fintype ι] (w : WorkerImpl ι) : ℕ := w.routine.ahead + w.dispatcher.work

/-- A step of the dispatcher is one less. -/
theorem Calls.work_dispatcher [Fintype ι] (hw : w.Calls cb) (ha : a.Continues)
    (h : workerStep cb (.dispatcher a) w = some w') : w'.work < w.work := by
  obtain ⟨-, h⟩ := Option.ite_none_right_eq_some.1 h
  obtain ⟨d, hd, rfl⟩ := Option.map_eq_some_iff.1 h
  have hlower := Dispatcher.work_lt (Dispatcher.deferredInv_of_reachable hw.reachable) ha hd
  rw [work, work]
  dsimp only
  split_ifs with hflush
  · rw [hflush.1]
    exact Nat.add_lt_add (by decide) hlower
  · exact Nat.add_lt_add_left hlower _

/-- A post adds no more than nine steps. -/
theorem work_postAppend [Fintype ι] {t : Option ι} {callback : ℕ}
    (h : workerStep cb (.dispatcher (.postAppend t callback)) w = some w') :
    w'.work ≤ w.work + 9 := by
  obtain ⟨-, h⟩ := Option.ite_none_right_eq_some.1 h
  obtain ⟨d, hd, rfl⟩ := Option.map_eq_some_iff.1 h
  obtain ⟨hcall, heq⟩ := Option.ite_none_right_eq_some.1 hd
  have hadd : d.work = w.dispatcher.work + 9 :=
    Option.some.inj heq ▸ Dispatcher.work_postAppend hcall callback
  rw [work, work]
  dsimp only
  split_ifs with hflush
  · rw [hflush.1, hadd, ← Nat.add_assoc]
    exact Nat.add_le_add_right (Nat.add_le_add_right (by decide) _) 9
  · rw [hadd, ← Nat.add_assoc]

/-- The routine goes on at its own expense, and posts at that of the start. -/
theorem Calls.work_threadRoutine [Fintype ι] (hw : w.Calls cb) (h : w.threadRoutine cb = some w') :
    w'.work < w.work ∨
      w.routine = .posting ∧ w'.routine = .scheduling ∧ w'.work ≤ w.work + 8 := by
  rw [WorkerImpl.threadRoutine] at h
  cases hroutine : w.routine <;> rw [hroutine] at h <;> dsimp only at h
  case notCreated | flushing | finished => cases h
  case posting =>
    obtain ⟨d, hd, rfl⟩ := Option.map_eq_some_iff.1 h
    obtain ⟨hcall, heq⟩ := Option.ite_none_right_eq_some.1 hd
    have hadd : d.work = w.dispatcher.work + 9 :=
      Option.some.inj heq ▸ Dispatcher.work_postAppend hcall cb
    refine .inr ⟨rfl, rfl, ?_⟩
    simp only [work, hroutine, hadd, Routine.ahead]
    omega
  case scheduling =>
    obtain ⟨d, hd, rfl⟩ := Option.map_eq_some_iff.1 h
    have hlower := Dispatcher.work_lt (a := .postSchedule none)
      (Dispatcher.deferredInv_of_reachable hw.reachable) trivial hd
    simp only [work, hroutine, Routine.ahead]
    omega
  case running | shuttingDown =>
    obtain ⟨d, hd, rfl⟩ := Option.map_eq_some_iff.1 h
    obtain ⟨⟨-, hidle⟩, heq⟩ := Option.ite_none_right_eq_some.1 hd
    have hwork := Dispatcher.work_loop w.dispatcher d.loop
    rw [hidle] at hwork
    obtain rfl := Option.some.inj heq
    simp only [Loop.ahead] at hwork
    simp only [work, hroutine, Routine.ahead]
    omega
  case looping | inShutdown =>
    obtain ⟨-, h⟩ := Option.ite_none_right_eq_some.1 h
    obtain rfl := Option.some.inj h
    simp only [work, hroutine, Routine.ahead]
    omega
  case resetting =>
    obtain rfl := Option.some.inj h
    simp only [work, hroutine, Routine.ahead]
    omega

/-! ### Where a worker has no steps left

A worker without a step is blocked nowhere: not at the lock of its dispatcher, which other threads
give back, and not in a flush, which ends.
-/

omit [DecidableEq ι] in
/-- Where the routine runs the code of others, the steps of the dispatcher may be taken. -/
theorem mayTake_of_continues (hroutine : w.routine.runsCode = true) (ha : a.Continues) :
    w.mayTake a = true := by
  cases a <;> first | exact ha.elim | simp [mayTake, hroutine]

/-- **A worker that was started gets past its flush.** -/
theorem Calls.pastFlush_of_stuck (hw : w.Calls cb) (hstarted : w.routine ≠ .notCreated)
    (hroutine : w.threadRoutine cb = none)
    (hstuck : ∀ a, a.Continues → workerStep cb (.dispatcher a) w = none) :
    w.routine.pastFlush = true := by
  have hown := hw.own
  have hat := hw.inv.atRoutine
  rw [WorkerImpl.threadRoutine] at hroutine
  cases hr : w.routine <;> rw [hr] at hroutine <;> rw [OwnCalls, hr] at hown <;>
    rw [AtRoutine, hr] at hat <;> dsimp only at hroutine
  case notCreated => exact absurd hr hstarted
  case posting =>
    simp [dispatcherStep, Dispatcher.mayCall, Dispatcher.userCode, hown, hat] at hroutine
  case scheduling =>
    obtain ⟨-, doPost, hcaller⟩ := hown
    simp [dispatcherStep, hcaller] at hroutine
  case running =>
    simp [dispatcherStep, Dispatcher.loopReady, hown, hat] at hroutine
  case flushing =>
    -- the dispatcher is not idle, so it can go on
    have hnone (b : Action ι) (hb : b.Continues) : dispatcherStep b w.dispatcher = none := by
      have h := hstuck b hb
      rw [workerStep, if_pos (mayTake_of_continues (by rw [hr]; rfl) hb)] at h
      exact Option.map_eq_none_iff.1 h
    obtain ⟨hbusy, hshutdown⟩ := hat.1.under_way
    exact absurd (Dispatcher.loop_of_stuck (Dispatcher.armed_of_reachable hw.reachable hshutdown)
      hnone)
      hbusy
  all_goals rfl

end WorkerImpl

theorem eq_of_workerStartedRunning {cb : ℕ} (h : workerTask L cb = some .workerStartedRunning) :
    cb = L := by
  rw [workerTask] at h
  split_ifs at h with hlt heq
  · cases h
  · exact heq

/-! ### The calls of the main thread

The main thread posts the notification and runs its dispatcher. Its calls are those of its routine,
as they are for the workers.
-/

namespace ServerRun

variable {s s' : ServerRun W L}

/-- What holds of the main thread's own calls where it is, and of the notification that it posts. -/
def OwnCalls (s : ServerRun W L) : Prop :=
  match s.routine with
  | .initializing | .posting => s.dispatcher.loop = .idle
  | .scheduling =>
    s.dispatcher.loop = .idle ∧ W * L ∈ s.dispatcher.posted ∧
      ∃ doPost, s.dispatcher.caller none = .posted doPost
  | .running => s.dispatcher.loop = .idle ∧ W * L ∈ s.dispatcher.posted
  | .flushing => s.dispatcher.loop ≠ .idle ∧ W * L ∈ s.flushed
  | .looping => W * L ∈ s.flushed

/-- What is known of the calls of all threads. -/
structure Calls (s : ServerRun W L) : Prop where
  /-- The workers make the calls of their routines. -/
  workers : ∀ w, (s.workers w).impl.Calls L
  /-- The dispatcher of the main thread is in a state that a run of the dispatcher reaches. -/
  reachable : Reachable dispatcherStep {} s.dispatcher
  /-- It is not shut down. -/
  beforeShutdown : s.dispatcher.shutdownPhase = false
  /-- The main thread makes the calls of its routine. -/
  own : s.OwnCalls
  /-- Where the notification was executed, it has been run. -/
  notified : W * L ∈ s.dispatcher.executed → s.notified.isSome = true

theorem calls_initial (W L : ℕ) : (initial W L).Calls :=
  ⟨fun _ ↦ WorkerImpl.calls_init L, .refl _ _, rfl, rfl, fun h ↦ absurd h List.not_mem_nil⟩

/-- A step of the main dispatcher that the main thread does not take as part of its routine. -/
theorem OwnCalls.of_step {a : Action (ServerThread W)} {d : Dispatcher (ServerThread W)}
    (hs : s.OwnCalls) (hmay : s.mayTake a = true) (h : dispatcherStep a s.dispatcher = some d) :
    (s.setDispatcher d).OwnCalls := by
  have hposted : s.dispatcher.posted ⊆ d.posted := posted_step h ▸ List.subset_append_left _ _
  have hloop (hne : s.routine ≠ .flushing) (hne' : s.routine ≠ .looping) :
      d.loop = s.dispatcher.loop := by
    refine Dispatcher.loop_of_ofLoop ?_ h
    cases a <;> first | rfl | simp [mayTake, hne, hne', Action.thread, Action.ofLoop] at hmay
  rw [OwnCalls] at hs ⊢
  cases hroutine : s.routine <;> rw [hroutine] at hs hloop <;>
    simp only [setDispatcher, hroutine, reduceCtorEq, false_and, if_false, true_and]
  case initializing | posting => exact (hloop (by decide) (by decide)).trans hs
  case scheduling =>
    obtain ⟨hidle, hmem, hcaller⟩ := hs
    have hthread : a.thread.isSome = true := by
      cases a <;> simp [mayTake, hroutine] at hmay ⊢ <;> exact hmay
    refine ⟨(hloop (by decide) (by decide)).trans hidle, hposted hmem, ?_⟩
    rw [(Dispatcher.own_of_thread hthread h).2]
    exact hcaller
  case running => exact ⟨(hloop (by decide) (by decide)).trans hs.1, hposted hs.2⟩
  case flushing =>
    split_ifs with hidle
    · exact hs.2
    · exact ⟨hidle, hs.2⟩
  case looping => exact hs

/-- A step of another thread may always be taken. -/
theorem mayTake_of_thread {a : Action (ServerThread W)} (ha : a.thread.isSome = true) :
    s.mayTake a = true := by
  cases a <;> first | cases ha | simp only [mayTake, ha, Bool.true_or]

/-- Another thread does not let the main thread return. -/
theorem OwnCalls.of_thread {a : Action (ServerThread W)} {d : Dispatcher (ServerThread W)}
    (hs : s.OwnCalls) (ha : a.thread.isSome = true) (h : dispatcherStep a s.dispatcher = some d) :
    ({ s with dispatcher := d } : ServerRun W L).OwnCalls := by
  have hset := hs.of_step (mayTake_of_thread ha) h
  have hsame : s.setDispatcher d = { s with dispatcher := d } := by
    rw [setDispatcher, if_neg]
    rintro ⟨hroutine, hidle⟩
    rw [OwnCalls, hroutine] at hs
    exact hs.1 ((Dispatcher.loop_of_thread ha h).symm.trans hidle)
  rwa [hsame] at hset

/-- Nobody is notified but by the notification. -/
theorem notified_runMain {a : Action (ServerThread W)} {d : Dispatcher (ServerThread W)}
    (hs : W * L ∈ s.dispatcher.executed → s.notified.isSome = true)
    (h : dispatcherStep a s.dispatcher = some d) (hmem : W * L ∈ d.executed) :
    ((s.setDispatcher d).runMain ((a.executes s.dispatcher).bind (mainTask W L))).notified.isSome =
      true := by
  rw [Dispatcher.executed_step h, List.mem_append, Option.mem_toList] at hmem
  rcases hmem with hmem | hmem
  · have hsome := hs hmem
    match (a.executes s.dispatcher).bind (mainTask W L) with
    | none | some (.report p) => exact hsome
    | some .notifyStartup => rfl
  · have htask : (a.executes s.dispatcher).bind (mainTask W L) = some .notifyStartup := by
      rw [hmem, Option.bind_some, mainTask, dif_neg (Nat.lt_irrefl _), if_pos rfl]
    rw [htask]
    rfl

/-- A step of the server keeps to this. -/
theorem Calls.step {a : ServerAction W} (hs : s.Calls) (h : Step s a s') : s'.Calls := by
  obtain ⟨hworkers, hreach, hshutdown, hown, hnotified⟩ := hs
  have hexecuted {b : Action (ServerThread W)} {d : Dispatcher (ServerThread W)}
      (hd : dispatcherStep b s.dispatcher = some d) (hexecutes : b.executes s.dispatcher = none) :
      d.executed = s.dispatcher.executed := by
    rw [Dispatcher.executed_step hd, hexecutes, Option.toList_none, List.append_nil]
  cases h with
  | @addListenerToWorker w l program impl _ _ himpl =>
    have hother : L ∉ (Action.postAppend (some ServerThread.main) (l : ℕ) :
        Action (ServerThread W)).appends := fun hmem ↦ absurd (List.mem_singleton.1 hmem) l.isLt.ne'
    exact ⟨forall_setWorker (P := WorkerImpl.Calls L) hworkers
      ((hworkers w).dispatcher hother himpl), hreach, hshutdown, hown, hnotified⟩
  | start _ _ himpl =>
    exact ⟨forall_setWorker (P := WorkerImpl.Calls L) hworkers ((hworkers _).start himpl), hreach,
      hshutdown, hown, hnotified⟩
  | wait => exact ⟨hworkers, hreach, hshutdown, hown, hnotified⟩
  | started hroutine =>
    rw [OwnCalls, hroutine] at hown
    exact ⟨hworkers, hreach, hshutdown, hown, hnotified⟩
  | @posting d hroutine hd =>
    rw [OwnCalls, hroutine] at hown
    refine ⟨hworkers, hreach.tail _ hd, Dispatcher.shutdownPhase_step (by simp) hd hshutdown,
      ⟨(Dispatcher.loop_of_ofLoop rfl hd).trans hown, ?_, ?_⟩, fun hmem ↦ hnotified ?_⟩
    · show W * L ∈ d.posted
      rw [posted_step hd]
      exact List.mem_append_right _ (List.mem_singleton_self _)
    · obtain ⟨-, heq⟩ := Option.ite_none_right_eq_some.1 hd
      obtain rfl := Option.some.inj heq
      exact ⟨_, Function.update_self none _ s.dispatcher.caller⟩
    · exact hexecuted hd rfl ▸ hmem
  | @scheduling d hroutine hd =>
    rw [OwnCalls, hroutine] at hown
    have hposted : d.posted = s.dispatcher.posted := (posted_step hd).trans (List.append_nil _)
    exact ⟨hworkers, hreach.tail _ hd, Dispatcher.shutdownPhase_step (by simp) hd hshutdown,
      ⟨(Dispatcher.loop_of_ofLoop rfl hd).trans hown.1, hposted ▸ hown.2.1⟩,
      fun hmem ↦ hnotified (hexecuted hd rfl ▸ hmem)⟩
  | @running d hroutine hd =>
    rw [OwnCalls, hroutine] at hown
    refine ⟨hworkers, hreach.tail _ hd, Dispatcher.shutdownPhase_step (by simp) hd hshutdown,
      ⟨?_, hown.2⟩, fun hmem ↦ hnotified (hexecuted hd rfl ▸ hmem)⟩
    obtain ⟨-, heq⟩ := Option.ite_none_right_eq_some.1 hd
    obtain rfl := Option.some.inj heq
    exact fun hidle ↦ by cases hidle
  | @mainDispatcher a d hmay hother hd =>
    have hset := hown.of_step hmay hd
    have hphase := Dispatcher.shutdownPhase_step (by rintro rfl; cases hmay) hd hshutdown
    have hafter := notified_runMain hnotified hd
    match htask : (a.executes s.dispatcher).bind (mainTask W L) with
    | none | some (.report p) | some .notifyStartup =>
      rw [htask] at hafter
      exact ⟨hworkers, hreach.tail _ hd, hphase, hset, hafter⟩
  | threadRoutine himpl =>
    exact ⟨forall_setWorker (P := WorkerImpl.Calls L) hworkers ((hworkers _).threadRoutine himpl),
      hreach, hshutdown, hown, hnotified⟩
  | @workerDispatcher w a impl _ hother himpl =>
    have himpl' : impl.Calls L :=
      (hworkers w).dispatcher (fun hmem ↦ absurd (hother _ hmem) (Nat.lt_irrefl L)) himpl
    have hworkers' := forall_runWorker (P := WorkerImpl.Calls L) (w := w) hworkers himpl'
      ((a.executes (s.workers w).impl.dispatcher).bind (workerTask L))
    match htask : (a.executes (s.workers w).impl.dispatcher).bind (workerTask L) with
    | none | some .workerStartedRunning | some (.addListener l) =>
      rw [htask] at hworkers'
      exact ⟨hworkers', hreach, hshutdown, hown, hnotified⟩
  | @completion w l d _ hd =>
    exact ⟨forall_setWorker (P := WorkerImpl.Calls L) hworkers (hworkers w), hreach.tail _ hd,
      Dispatcher.shutdownPhase_step (by simp) hd hshutdown, hown.of_thread rfl hd,
      fun hmem ↦ hnotified (hexecuted hd rfl ▸ hmem)⟩

/-- This holds in every state that a run reaches. -/
theorem calls_of_reachable (hs : Reachable serverStep (initial W L) s) : s.Calls :=
  invariant_of_reachable (calls_initial W L) (fun _ _ _ hcalls h ↦ hcalls.step (.of_step h)) hs

/-! ### The steps the server has left

The steps of the queues count tenfold, as each of them is a call with a few steps in the
dispatchers.
-/

/-- The steps of the queues count for what they ask of the dispatchers. -/
def work (s : ServerRun W L) : ℕ :=
  10 * s.startup.work + s.routine.ahead + s.dispatcher.work +
    Threads.work (fun worker : RunningWorker W L ↦ worker.impl.work) s.workers

/-- The work of the workers after a change of one of them. -/
theorem work_setWorker (s : ServerRun W L) (w : Fin W) (worker : RunningWorker W L) :
    Threads.work (fun worker : RunningWorker W L ↦ worker.impl.work)
      (s.setWorker w worker).workers + (s.workers w).impl.work =
      Threads.work (fun worker : RunningWorker W L ↦ worker.impl.work) s.workers +
        worker.impl.work :=
  Threads.work_update fun worker : RunningWorker W L ↦ worker.impl.work

/-- A step that costs the server less than what it takes from its worker. -/
theorem work_setWorker_lt {t : ServerRun W L} {w : Fin W} {worker : RunningWorker W L} {n : ℕ}
    (hn : (t.setWorker w worker).startup.work = n) (hroutine : t.routine = s.routine)
    (hworkers : t.workers = s.workers)
    (h : 10 * n + t.dispatcher.work + worker.impl.work <
      10 * s.startup.work + s.dispatcher.work + (s.workers w).impl.work) :
    (t.setWorker w worker).work < s.work := by
  have hsum := work_setWorker t w worker
  rw [hworkers] at hsum
  rw [work, hn, work, ← hroutine]
  show 10 * n + t.routine.ahead + t.dispatcher.work + _ < _
  omega

theorem work_runWorker (s : ServerRun W L) (w : Fin W) (impl : WorkerImpl (ServerThread W))
    (task : Option (WorkerTask L)) :
    Threads.work (fun worker : RunningWorker W L ↦ worker.impl.work)
          (s.runWorker w impl task).workers + (s.workers w).impl.work =
      Threads.work (fun worker : RunningWorker W L ↦ worker.impl.work) s.workers + impl.work := by
  match task with
  | some (.addListener l) => exact work_setWorker s w { impl, adding := some l }
  | some .workerStartedRunning | none => exact work_setWorker s w { s.workers w with impl }

/-- A step of the queues is one less. -/
theorem startup_work {a : ServerAction W} (hs : Reachable serverStep (initial W L) s)
    (h : serverStep a s = some s') :
    s'.startup = s.startup ∨ s'.startup.work + 1 = s.startup.work := by
  rcases startup_step (inv_of_reachable hs) h with heq | ⟨b, hb⟩
  · exact .inl heq
  · exact .inr ((Startup.Inv.of_reachable (startup_of_run (inv_initial W L) hs)).work_step
      (.of_step hb))

/-- **Every step is one of finitely many**, whether the queues see it or not. -/
theorem work_lt {a : ServerAction W} (hs : Reachable serverStep (initial W L) s) (ha : a.Continues)
    (h : serverStep a s = some s') : s'.work < s.work := by
  have hcalls := calls_of_reachable hs
  have hdeferred := Dispatcher.deferredInv_of_reachable hcalls.reachable
  have hqueues := startup_work hs h
  obtain ⟨n, hn⟩ : ∃ n, s'.startup.work = n := ⟨_, rfl⟩
  rw [hn] at hqueues
  have hle : n ≤ s.startup.work := by
    rcases hqueues with heq | hlt
    · rw [← hn, heq]
    · omega
  have hshorter {op : MainOp W L} {program : List (MainOp W L)}
    (hprogram : s.program = op :: program)
      (hprogram' : s'.program = program) : n + 1 = s.startup.work := by
    refine hqueues.resolve_left fun heq ↦ ?_
    have hsame : s'.program = s.program := congrArg Startup.program heq
    rw [hprogram', hprogram] at hsame
    exact absurd (congrArg List.length hsame) (by simp)
  cases Step.of_step h with
  | addListenerToWorker _ hprogram himpl =>
    have hlt := hshorter hprogram rfl
    have hadd := WorkerImpl.work_postAppend himpl
    refine work_setWorker_lt hn rfl rfl ?_
    dsimp only
    omega
  | @start w program impl _ hprogram himpl =>
    have hlt := hshorter hprogram rfl
    have hlower : impl.work ≤ (s.workers w).impl.work := by
      obtain ⟨hnot, heq⟩ := Option.ite_none_right_eq_some.1 himpl
      obtain rfl := Option.some.inj heq
      rw [WorkerImpl.work, WorkerImpl.work, hnot]
      exact Nat.add_le_add_right (by simp [Routine.ahead]) _
    refine work_setWorker_lt hn rfl rfl ?_
    dsimp only
    omega
  | wait _ hprogram =>
    have hlt := hshorter hprogram rfl
    rw [work, hn, work]
    dsimp only
    omega
  | started hroutine =>
    rw [work, hn, work, hroutine]
    simp only [MainRoutine.ahead]
    omega
  | @posting d hroutine hd =>
    obtain ⟨hcall, heq⟩ := Option.ite_none_right_eq_some.1 hd
    have hadd : d.work = s.dispatcher.work + 9 :=
      Option.some.inj heq ▸ Dispatcher.work_postAppend hcall _
    rw [work, hn, work, hroutine]
    simp only [MainRoutine.ahead]
    omega
  | scheduling hroutine hd =>
    have hlower := Dispatcher.work_lt (a := .postSchedule none) hdeferred trivial hd
    rw [work, hn, work, hroutine]
    simp only [MainRoutine.ahead]
    omega
  | running hroutine hd =>
    have hloop := Dispatcher.work_loop s.dispatcher .postEntered
    obtain ⟨⟨-, hidle⟩, heq⟩ := Option.ite_none_right_eq_some.1 hd
    obtain rfl := Option.some.inj heq
    rw [hidle] at hloop
    simp only [Loop.ahead] at hloop
    rw [work, hn, work, hroutine]
    simp only [MainRoutine.ahead]
    omega
  | @mainDispatcher b d _ _ hd =>
    have hlower := Dispatcher.work_lt hdeferred ha hd
    have hahead : (s.setDispatcher d).routine.ahead ≤ s.routine.ahead := by
      rw [setDispatcher]
      dsimp only
      split_ifs with hflush
      · rw [hflush.1]
        exact Nat.zero_le _
      · exact Nat.le_refl _
    obtain ⟨hroutine', -, hdispatcher', hworkers'⟩ :=
      frame_runMain (s.setDispatcher d) ((b.executes s.dispatcher).bind (mainTask W L))
    rw [work, hn, work, hroutine', hdispatcher', hworkers']
    show 10 * n + _ + d.work + Threads.work _ s.workers < _
    omega
  | @threadRoutine w impl himpl =>
    refine work_setWorker_lt hn rfl rfl ?_
    dsimp only
    rcases (hcalls.workers w).work_threadRoutine himpl with hlower | ⟨hposting, hscheduling, hadd⟩
    · omega
    · -- the callback is posted
      have hlt : n + 1 = s.startup.work := hqueues.resolve_left fun heq ↦ by
        rw [startup_setWorker] at heq
        have hthread := congrArg (fun t : Startup W L ↦ (t.workers w).thread) heq
        simp only [Startup.setWorker_self, RunningWorker.startup, startup, hposting, hscheduling,
          Routine.threadState, reduceCtorEq] at hthread
      omega
  | @workerDispatcher w b impl _ _ himpl =>
    have hlower := (hcalls.workers w).work_dispatcher ha himpl
    have hsum := work_runWorker s w impl ((b.executes (s.workers w).impl.dispatcher).bind
      (workerTask L))
    obtain ⟨hroutine', -, hdispatcher'⟩ :=
      frame_runWorker s w impl ((b.executes (s.workers w).impl.dispatcher).bind (workerTask L))
    rw [work, hn, work, hroutine', hdispatcher']
    omega
  | @completion w l d hadding hd =>
    have hlt : n + 1 = s.startup.work := hqueues.resolve_left fun heq ↦ by
      rw [startup_setWorker] at heq
      have hnone := congrArg (fun t : Startup W L ↦ (t.workers w).adding) heq
      simp only [Startup.setWorker_self, RunningWorker.startup, startup, hadding, reduceCtorEq]
        at hnone
    obtain ⟨hcall, heq⟩ := Option.ite_none_right_eq_some.1 hd
    have hadd : d.work = s.dispatcher.work + 9 :=
      Option.some.inj heq ▸ Dispatcher.work_postAppend hcall _
    refine work_setWorker_lt hn rfl rfl ?_
    dsimp only
    omega

/-! ### Where the server has no steps left

If nobody can take a step, then the main thread is not waiting for a worker: each of them has got
past its flush, and so has run the callback that counts down.
-/

/-- Nobody can go on. -/
def Stuck (s : ServerRun W L) : Prop := ∀ a : ServerAction W, a.Continues → serverStep a s = none

namespace Stuck

/-- The main dispatcher has no step that the main thread may take. -/
theorem mainDispatcher (h : s.Stuck) {b : Action (ServerThread W)} (hb : b.Continues)
    (hmay : s.mayTake b = true) : dispatcherStep b s.dispatcher = none := by
  have hnone := h (.mainDispatcher b) hb
  have happends : ∀ cb ∈ b.appends, W * L < cb := by
    rw [hb.appends]
    exact fun _ hcb ↦ absurd hcb List.not_mem_nil
  rw [serverStep, if_pos ⟨hmay, happends⟩] at hnone
  exact Option.map_eq_none_iff.1 hnone

theorem mainCaller (h : s.Stuck) (w : Fin W) : s.dispatcher.caller (some (.worker w)) = .outside :=
  Dispatcher.caller_eq_outside
    (h.mainDispatcher (b := .postSchedule (some (.worker w))) trivial (mayTake_of_thread rfl))
    (h.mainDispatcher (b := .deleteSchedule (some (.worker w))) trivial (mayTake_of_thread rfl))

/-- A worker that has added a listener can report it. -/
theorem mayGoOn (h : s.Stuck) (w : Fin W) : s.mayGoOn w = true := by
  have hcaller := h.mainCaller w
  have hadding : (s.workers w).adding = none := by
    match hadding : (s.workers w).adding with
    | none => rfl
    | some l =>
      have hnone := h (.completion w) trivial
      simp [serverStep, hadding, dispatcherStep, Dispatcher.mayCall, hcaller] at hnone
  simp [ServerRun.mayGoOn, hadding, hcaller]

/-- A worker's dispatcher has no step left. -/
theorem workerDispatcher (h : s.Stuck) (w : Fin W) {b : Action (ServerThread W)}
    (hb : b.Continues) :
    workerStep L (.dispatcher b) (s.workers w).impl = none := by
  have hnone := h (.workerDispatcher w b) hb
  have happends : ∀ cb ∈ b.appends, L < cb := by
    rw [hb.appends]
    exact fun _ hcb ↦ absurd hcb List.not_mem_nil
  rw [serverStep, if_pos ⟨fun _ ↦ h.mayGoOn w, happends⟩] at hnone
  exact Option.map_eq_none_iff.1 hnone

/-- The main thread is in no call of a worker's dispatcher. -/
theorem betweenCalls (h : s.Stuck) : s.betweenCalls = true := by
  have hnone (w : Fin W) {b : Action (ServerThread W)} (hb : b.Continues)
    (hthread : b.thread.isSome = true) :
      dispatcherStep b (s.workers w).impl.dispatcher = none := by
    have hworker := h.workerDispatcher w hb
    rw [workerStep, if_pos (WorkerImpl.mayTake_of_thread hthread)] at hworker
    exact Option.map_eq_none_iff.1 hworker
  refine decide_eq_true fun w ↦ Dispatcher.caller_eq_outside ?_ ?_
  · exact hnone w (b := .postSchedule (some .main)) trivial rfl
  · exact hnone w (b := .deleteSchedule (some .main)) trivial rfl

/-- A worker whose thread was created has counted `workers_waiting_to_run` down. -/
theorem starting (h : s.Stuck) (hs : s.Calls) {w : Fin W}
    (hthread : (s.startup.workers w).thread ≠ .notCreated) :
    (s.startup.workers w).starting = 0 := by
  have hcalls := hs.workers w
  have hcreated : (s.workers w).impl.routine ≠ .notCreated := fun hroutine ↦
    hthread (congrArg Routine.threadState hroutine)
  have hpast : (s.workers w).impl.routine.pastFlush = true :=
    hcalls.pastFlush_of_stuck hcreated (Option.map_eq_none_iff.1 (h (.threadRoutine w) trivial))
      fun b hb ↦ h.workerDispatcher w hb
  have hdispatching : (s.startup.workers w).thread = .dispatching := by
    show (s.workers w).impl.routine.threadState = _
    cases hroutine : (s.workers w).impl.routine <;> rw [hroutine] at hpast <;>
      first | rfl | cases hpast
  obtain ⟨hmem, hbegin⟩ := hcalls.inv.flushed_of_pastFlush hpast
  have hqueue : WorkerTask.workerStartedRunning ∉ (s.startup.workers w).queue := by
    intro htask
    obtain ⟨cb, hcb, heq⟩ := List.mem_filterMap.1 htask
    rw [eq_of_workerStartedRunning heq] at hcb
    exact hcalls.not_mem_queue (hbegin.subset hmem) hcb
  rw [Worker.starting, hdispatching, List.count_eq_zero.2 hqueue]
  rfl

/-- `startWorkers` returns. -/
theorem ne_initializing (h : s.Stuck) (hs : Reachable serverStep (initial W L) s) :
    s.routine ≠ .initializing := by
  intro hroutine
  have hstartup := Startup.Inv.of_reachable (startup_of_run (inv_initial W L) hs)
  have hnone : s.main = none := h .main trivial
  rw [main, hroutine] at hnone
  dsimp only at hnone
  rw [if_pos h.betweenCalls] at hnone
  split at hnone
  · rename_i w l program hprogram
    have hcaller := of_decide_eq_true h.betweenCalls w
    have hmay : (s.workers w).impl.mayTake (.postAppend (some .main) (l : ℕ)) = true :=
      WorkerImpl.mayTake_of_thread rfl
    simp [workerStep, hmay, dispatcherStep, Dispatcher.mayCall, hcaller] at hnone
  · rename_i w program hprogram
    have hthread : (s.workers w).impl.routine.threadState = .notCreated :=
      hstartup.notCreated_of_start hprogram
    have hcreated : (s.workers w).impl.routine = .notCreated := by
      cases hr : (s.workers w).impl.routine <;> rw [hr] at hthread <;> first | rfl | cases hthread
    simp [workerStep, hcreated] at hnone
  · -- every worker has counted down
    rename_i program hprogram
    have hlast : Startup.WaitsLast (.wait :: program) := hprogram ▸ hstartup.waitsLast
    obtain rfl := hlast.eq_nil
    have hlatch : s.workersWaitingToRun = ∑ w, (s.startup.workers w).starting := hstartup.latch
    have hzero : ∑ w, (s.startup.workers w).starting = 0 := by
      refine Finset.sum_eq_zero fun w _ ↦ h.starting (calls_of_reachable hs) (hstartup.thread_ne ?_)
      show s.program.count (.start w) = 0
      rw [hprogram]
      rfl
    rw [if_pos (hlatch.trans hzero)] at hnone
    cases hnone
  · cases hnone

/-- **The main thread is in its event loop.** -/
theorem looping (h : s.Stuck) (hs : Reachable serverStep (initial W L) s) :
    s.routine = .looping := by
  have hcalls := calls_of_reachable hs
  have hown := hcalls.own
  have hnone : s.main = none := h .main trivial
  -- the main thread is in no call and in no pass of its own, where it may go on with them
  have hcaller (hroutine : s.routine ≠ .scheduling) : s.dispatcher.caller none = .outside :=
    Dispatcher.caller_eq_outside
      (h.mainDispatcher (b := .postSchedule none) trivial
        (by simp [mayTake, hroutine, Action.ofLoop]))
      (h.mainDispatcher (b := .deleteSchedule none) trivial
        (by simp [mayTake, hroutine, Action.ofLoop]))
  have hpass (hroutine : s.routine ≠ .scheduling) : s.dispatcher.pass = none :=
    Dispatcher.pass_eq_none (Dispatcher.deferredInv_of_reachable hcalls.reachable)
      (hcaller hroutine)
      (h.mainDispatcher trivial (by simp [mayTake, hroutine, Action.ofLoop]))
      (h.mainDispatcher trivial (by simp [mayTake, hroutine, Action.ofLoop]))
  cases hroutine : s.routine <;> rw [OwnCalls, hroutine] at hown <;>
    rw [hroutine] at hcaller hpass <;>
    simp only [main, hroutine] at hnone
  case initializing => exact absurd hroutine (h.ne_initializing hs)
  case posting =>
    simp [dispatcherStep, Dispatcher.mayCall, Dispatcher.userCode, hcaller, show s.dispatcher.loop =
      .idle from hown] at hnone
  case scheduling =>
    obtain ⟨-, -, doPost, hposted⟩ := hown
    simp [dispatcherStep, hposted] at hnone
  case running =>
    simp [dispatcherStep, Dispatcher.loopReady, hcaller, hpass, hown.1] at hnone
  case flushing =>
    refine absurd (Dispatcher.loop_of_stuck (Dispatcher.armed_of_reachable hcalls.reachable
      hcalls.beforeShutdown) fun b hb ↦ h.mainDispatcher hb ?_) hown.1
    cases b <;> first | exact hb.elim | simp [mayTake, hroutine]

end Stuck

end ServerRun

/-! ### The handlers

A call of `addListener` without a result is undefined behaviour. So a run of the source is a run of
these steps up to the first such call, and where it comes to one nothing can be said of what
follows.
-/

namespace ServingRun

variable {configs : Fin L → ListenerConfig} {s s' : ServingRun W L} {a : ServerAction W}

end ServingRun

end TcpServer.Server
