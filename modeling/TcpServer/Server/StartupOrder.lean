import TcpServer.Server.Initialize

/-!
# What the main thread finds when it runs

Every worker is posted its listeners before its thread is started, and the callback that counts
`workers_waiting_to_run` down is posted by the thread itself. So a worker that has counted down has
added all its listeners and has posted the reports, and when `startWorkers` returns all reports have
been posted to the dispatcher of the main thread. This is an invariant of the queues
(`Startup.Ordered`).

What follows for the dispatchers does not depend on libevent: `Server::run` flushes the posted
callbacks before it enters the event loop, the reports are among them, and they come before the
notification of the stage, which is posted later. The notification therefore finds
`workers_started_` set.

The dispatchers of the workers are not looked at again. A run of the server is one of its queues
(`ServerRun.refines_queues`), so what the queues keep holds there too, and only the order in which
the main thread posts and flushes is about its own dispatcher.
-/

namespace TcpServer.Server

open Machine Event

variable {W L : ℕ}

/-! ### The order of the queues -/

/-- The operation posts a listener. -/
def MainOp.isAdd : MainOp W L → Bool
  | .addListenerToWorker .. => true
  | _ => false

/-- The callback of the thread comes last, and when it has run there is nothing left. -/
def Worker.Started (worker : Worker L) : Prop :=
  if worker.thread = .dispatching then
    (∃ queue, worker.queue = queue ++ [.workerStartedRunning] ∧ .workerStartedRunning ∉ queue) ∨
      worker.queue = [] ∧ worker.adding = none
  else .workerStartedRunning ∉ worker.queue

/-- A thread is created when there is nothing left to add. -/
structure Worker.Ordered (program : List (MainOp W L)) (worker : Worker L) : Prop where
  /-- While there is a listener left to post, the thread does not exist. -/
  created : worker.thread ≠ .notCreated → ∀ op ∈ program, op.isAdd = false
  /-- The callback of the thread comes last. -/
  started : worker.Started

/-- With one callback less in the queue, the callback of the thread still comes last. -/
theorem Worker.Started.tail {worker : Worker L} {task : WorkerTask L} {queue : List (WorkerTask L)}
    (hs : worker.Started) (hthread : worker.thread = .dispatching)
    (hqueue : worker.queue = task :: queue) :
    task = .workerStartedRunning ∧ queue = [] ∨
      ∃ before, queue = before ++ [.workerStartedRunning] ∧ .workerStartedRunning ∉ before := by
  rw [Worker.Started, if_pos hthread, hqueue] at hs
  rcases hs with ⟨before, heq, hbefore⟩ | ⟨heq, -⟩
  · match before with
    | [] => exact .inl (List.cons.inj heq)
    | task' :: before =>
      exact .inr ⟨before, (List.cons.inj heq).2, fun hmem ↦ hbefore (List.mem_cons_of_mem _ hmem)⟩
  · cases heq

namespace Startup

variable {s s' : Startup W L}

/-- The order in which `startWorkers` does what it does, and what the workers have of it. -/
structure Ordered (s : Startup W L) : Prop where
  /-- All additions come before all else. -/
  adds : s.program.Pairwise fun op op' ↦ op'.isAdd = true → op.isAdd = true
  /-- The workers are ordered. -/
  workers : ∀ w, (s.workers w).Ordered s.program
  /-- When there is nothing left to do, every worker has counted down. -/
  latch : s.program = [] → s.workersWaitingToRun = 0

theorem ordered_startWorkers (W L : ℕ) : (startWorkers W L).Ordered where
  adds := by
    have hadd : ∀ op ∈ (List.finRange L).flatMap fun listener ↦
        (List.finRange W).map (MainOp.addListenerToWorker · listener), op.isAdd = true := by
      intro op hop
      obtain ⟨l, -, hop⟩ := List.mem_flatMap.1 hop
      obtain ⟨w, -, rfl⟩ := List.mem_map.1 hop
      rfl
    have hrest : ∀ op ∈ (List.finRange W).map (MainOp.start (L := L)) ++ [.wait], op.isAdd =
        false := by
      intro op hop
      rcases List.mem_append.1 hop with hop | hop
      · obtain ⟨w, -, rfl⟩ := List.mem_map.1 hop
        rfl
      · rw [List.mem_singleton.1 hop]
        rfl
    rw [startWorkers, List.append_assoc]
    refine List.pairwise_append.2 ⟨?_, ?_, fun op hop _ _ _ ↦ hadd op hop⟩
    · exact List.pairwise_of_forall_mem_list fun op hop _ _ _ ↦ hadd op hop
    · exact List.pairwise_of_forall_mem_list fun _ _ op' hop' h ↦
        absurd ((hrest op' hop').symm.trans h) Bool.false_ne_true
  workers w := ⟨fun h ↦ absurd rfl h, List.not_mem_nil⟩
  latch h := by simp [startWorkers] at h

/-- A step of one worker leaves the others ordered. -/
theorem ordered_update {workers : Fin W → Worker L} {program program' : List (MainOp W L)}
    {w : Fin W}
    {worker : Worker L} (hs : ∀ w, (workers w).Ordered program) (hsub : program' ⊆ program)
    (hworker : worker.Ordered program') (w' : Fin W) :
    (Function.update workers w worker w').Ordered program' := by
  rw [Function.update_apply]
  split_ifs
  · exact hworker
  · exact ⟨fun hne op hop ↦ (hs w').created hne op (hsub hop), (hs w').started⟩

/-- Something comes after what is not the `wait`. -/
theorem WaitsLast.ne_nil {op : MainOp W L} {program : List (MainOp W L)}
    (h : WaitsLast (op :: program)) (hop : op ≠ .wait) : program ≠ [] := by
  rintro rfl
  rcases h with h | ⟨before, h, -⟩
  · cases h
  · match before with
    | [] => exact hop (List.cons.inj h).1
    | op' :: before => simp at h

/-- A step keeps the order. -/
theorem Ordered.step {a : StartupAction W} (hs : s.Ordered) (hinv : s.Inv)
    (h : Startup.step a s = some s') : s'.Ordered := by
  obtain ⟨hadds, hworkers, hlatch⟩ := hs
  have hwaits := hinv.waitsLast
  cases a with
  | main =>
    simp only [Startup.step] at h
    split at h
    · rename_i w l program hprogram
      obtain rfl := Option.some.inj h
      rw [hprogram] at hadds hwaits
      -- the thread of `w` does not exist yet
      have hthread : (s.workers w).thread = .notCreated := by
        by_contra hne
        exact absurd ((hworkers w).created hne (.addListenerToWorker w l)
          (hprogram ▸ List.mem_cons_self))
          (by simp [MainOp.isAdd])
      have hsub : program ⊆ s.program := hprogram ▸ List.subset_cons_self _ _
      refine ⟨hadds.of_cons, ordered_update hworkers hsub ⟨fun hne ↦ absurd hthread hne, ?_⟩,
        fun hnil ↦ absurd hnil (hwaits.ne_nil (by simp))⟩
      have hstarted := (hworkers w).started
      rw [Worker.Started, if_neg (by rw [hthread]; decide)] at hstarted ⊢
      simpa using hstarted
    · rename_i w program hprogram
      obtain rfl := Option.some.inj h
      have hthread := hinv.notCreated_of_start hprogram
      rw [hprogram] at hadds hwaits
      have hsub : program ⊆ s.program := hprogram ▸ List.subset_cons_self _ _
      refine ⟨hadds.of_cons, ordered_update hworkers hsub ⟨fun _ op hop ↦ ?_, ?_⟩,
        fun hnil ↦ absurd hnil (hwaits.ne_nil (by simp))⟩
      · exact Bool.eq_false_iff.2 fun hadd ↦
          Bool.false_ne_true (List.rel_of_pairwise_cons hadds hop hadd)
      · have hstarted := (hworkers w).started
        rw [Worker.Started, if_neg (by rw [hthread]; decide)] at hstarted
        rw [Worker.Started, if_neg (by simp)]
        exact hstarted
    · rename_i program hprogram
      obtain ⟨hzero, h⟩ := Option.ite_none_right_eq_some.1 h
      obtain rfl := Option.some.inj h
      rw [hprogram] at hadds
      exact ⟨hadds.of_cons, fun w ↦ ⟨fun hne op hop ↦ (hworkers w).created hne op
        (hprogram ▸ List.mem_cons_of_mem _ hop), (hworkers w).started⟩, fun _ ↦ hzero⟩
    · rw [Startup.report] at h
      split at h
      · cases h
      · obtain rfl := Option.some.inj h
        exact ⟨hadds, hworkers, hlatch⟩
  | threadRoutine w =>
    simp only [Startup.step] at h
    obtain ⟨hthread, h⟩ := Option.ite_none_right_eq_some.1 h
    obtain rfl := Option.some.inj h
    have hworker := hworkers w
    refine ⟨hadds, ordered_update hworkers (List.Subset.refl _) ⟨fun _ ↦
      hworker.created (by rw [hthread]; decide), ?_⟩, hlatch⟩
    have hstarted := hworker.started
    rw [Worker.Started, if_neg (by rw [hthread]; decide)] at hstarted
    rw [Worker.Started, if_pos rfl]
    exact .inl ⟨_, rfl, hstarted⟩
  | dispatch w =>
    simp only [Startup.step] at h
    obtain ⟨⟨hthread, hadding⟩, h⟩ := Option.ite_none_right_eq_some.1 h
    have hworker := hworkers w
    have hcreated := hworker.created (by rw [hthread]; decide)
    split at h
    · cases h
    · rename_i l queue hqueue
      obtain rfl := Option.some.inj h
      refine ⟨hadds, ordered_update hworkers (List.Subset.refl _) ⟨fun _ ↦ hcreated, ?_⟩, hlatch⟩
      rw [Worker.Started, if_pos hthread]
      rcases hworker.started.tail hthread hqueue with ⟨heq, -⟩ | hbefore
      · cases heq
      · exact .inl hbefore
    · rename_i queue hqueue
      obtain rfl := Option.some.inj h
      refine ⟨hadds, ordered_update hworkers (List.Subset.refl _) ⟨fun _ ↦ hcreated, ?_⟩,
        fun hnil ↦ ?_⟩
      · rw [Worker.Started, if_pos hthread]
        rcases hworker.started.tail hthread hqueue with ⟨-, hnil⟩ | hbefore
        · exact .inr ⟨hnil, hadding⟩
        · exact .inl hbefore
      · show s.workersWaitingToRun - 1 = 0
        rw [hlatch hnil]
  | completion w =>
    simp only [Startup.step] at h
    split at h
    · obtain rfl := Option.some.inj h
      have hworker := hworkers w
      refine ⟨hadds, ordered_update hworkers (List.Subset.refl _) ⟨hworker.created, ?_⟩, hlatch⟩
      have hstarted := hworker.started
      rw [Worker.Started] at hstarted ⊢
      split_ifs at hstarted ⊢
      · exact hstarted.imp_right fun hnil ↦ ⟨hnil.1, rfl⟩
      · exact hstarted
    · cases h

theorem ordered_of_reachable (hs : Reachable Startup.step (startWorkers W L) s) : s.Ordered :=
  (invariant_of_reachable (I := fun s ↦ s.Inv ∧ s.Ordered)
    ⟨inv_startWorkers W L, ordered_startWorkers W L⟩
    (fun _ _ _ h hstep ↦ ⟨h.1.step (.of_step hstep), h.2.step h.1 hstep⟩) hs).2

/-- **When `startWorkers` has returned, every addition has been reported to the main
dispatcher.** -/
theorem Ordered.sent (hs : s.Ordered) (hinv : s.Inv) (hprogram : s.program = [])
    (p : Fin W × Fin L) :
    p ∈ s.mainQueue ∨ p ∈ s.reported := by
  have hsum : ∑ w, (s.workers w).starting = 0 := hinv.latch.symm.trans (hs.latch hprogram)
  have hstarting : (s.workers p.1).starting = 0 :=
    Finset.sum_eq_zero_iff.1 hsum p.1 (Finset.mem_univ _)
  rw [Worker.starting] at hstarting
  have hthread : (s.workers p.1).thread = .dispatching := by
    by_contra hne
    rw [if_neg hne] at hstarting
    omega
  have hstarted := (hs.workers p.1).started
  rw [Worker.Started, if_pos hthread] at hstarted
  rcases hstarted with ⟨queue, hqueue, -⟩ | ⟨hqueue, hadding⟩
  · rw [hqueue, List.count_append, List.count_singleton_self] at hstarting
    omega
  · have hp := hinv.places p
    rw [places, hprogram, Worker.places, hqueue, hadding] at hp
    simp only [List.count_nil, reduceCtorEq, if_false] at hp
    rw [← List.count_pos_iff, ← List.count_pos_iff]
    omega

end Startup

/-! ### The order of the main thread

The notification is posted by `Server::run`, when all reports have been posted. The dispatcher
executes what was posted in that order, and flushes what it finds when it is run.
-/

/-- What a callback can rely on that is posted behind `l` only, it can rely on as long as no other
call posts it. -/
theorem mem_of_append_cons {β : Type*} {f : ℕ → Option β} {l l' : List ℕ} {n : ℕ}
    (hl : ∀ before after, l = before ++ n :: after → ∀ p, p ∈ before.filterMap f)
    (hnew : n ∈ l' → ∀ p, p ∈ l.filterMap f) {before after : List ℕ}
    (h : l ++ l' = before ++ n :: after) (p : β) : p ∈ before.filterMap f := by
  rcases List.append_eq_append_iff.1 h with ⟨mid, rfl, rfl⟩ | ⟨mid, rfl, hmid⟩
  · rw [List.filterMap_append]
    exact List.mem_append_left _ (hnew (List.mem_append_right _ List.mem_cons_self) p)
  · match mid with
    | [] =>
      have hmem : n ∈ l' := (show n :: after = l' from hmid) ▸ List.mem_cons_self
      have hp := hnew hmem p
      rwa [List.append_nil] at hp
    | _ :: mid =>
      obtain rfl := (List.cons.inj hmid).1
      exact hl before mid rfl p

namespace ServerRun

variable {s s' : ServerRun W L}

/-- What the main thread has when its dispatcher runs. -/
def Flushed (s : ServerRun W L) : Prop :=
  match s.routine with
  | .flushing =>
    s.dispatcher.Flushing s.flushed ∧ s.flushed <+: s.dispatcher.posted ∧
      ∀ p, p ∈ s.flushed.filterMap (reportOf W L)
  | .looping => s.flushed <+: s.dispatcher.executed ∧ ∀ p, p ∈ s.flushed.filterMap (reportOf W L)
  | _ => True

/-- What holds of the main thread's dispatcher in every state of the server. -/
structure Ordered (s : ServerRun W L) : Prop where
  /-- The reports that have been run are those that were executed. -/
  reported : s.reported = s.dispatcher.executed.filterMap (reportOf W L)
  /-- The callback of `startWorkers` sets `workers_started_`. -/
  workersStarted : 0 < s.invoked → s.workersStarted = true
  /-- The notification is posted behind all reports. -/
  notify : ∀ before after, s.dispatcher.posted = before ++ W * L :: after →
    ∀ p, p ∈ before.filterMap (reportOf W L)
  /-- What had been posted when the main thread called `run` is being flushed, or has been. -/
  flushed : s.Flushed
  /-- The notification has found `workers_started_` set. -/
  notified : ∀ b, s.notified = some b → b = true

theorem ordered_initial (W L : ℕ) : (initial W L).Ordered where
  reported := rfl
  workersStarted h := absurd h (Nat.lt_irrefl 0)
  notify before after h := by simp [initial] at h
  flushed := trivial
  notified b h := by cases h

/-- When `startWorkers` has returned, every report has been posted. -/
theorem posted_of_program (hs : Reachable serverStep (initial W L) s) (hordered : s.Ordered)
    (hprogram : s.program = []) (p : Fin W × Fin L) :
    p ∈ s.dispatcher.posted.filterMap (reportOf W L) := by
  have hreach := startup_of_run (inv_initial W L) hs
  rw [(inv_of_reachable hs).post.posted_eq, List.filterMap_append, ← hordered.reported]
  rcases (Startup.ordered_of_reachable hreach).sent (.of_reachable hreach) hprogram p with hp | hp
  · exact List.mem_append_right _ hp
  · exact List.mem_append_left _ hp

/-- When all reports have been run, the callback was called once. -/
theorem invoked_of_reported (hs : Reachable serverStep (initial W L) s) (hpos : 0 < W * L)
    (hle : W * L ≤ 2 ^ 64) (hall : ∀ p, p ∈ s.reported) : s.invoked = 1 :=
  ((Startup.Inv.of_reachable (startup_of_run (inv_initial W L) hs)).startedOnce hpos
    hle).afterReports
    (Nat.pos_of_mul_pos_left hpos) hall

/-- A step of the main dispatcher, of which `setDispatcher` tells whether it returns to `run`. -/
theorem Flushed.setDispatcher {a : Action (ServerThread W)} {d : Dispatcher (ServerThread W)}
    (hs : s.Flushed) (hinv : s.Inv) (hshutdown : a ≠ .shutdown)
    (h : dispatcherStep a s.dispatcher = some d) : (s.setDispatcher d).Flushed := by
  have hposted : s.dispatcher.posted <+: d.posted := posted_step h ▸ List.prefix_append _ _
  rw [Flushed] at hs ⊢
  rw [ServerRun.setDispatcher]
  by_cases hflush : s.routine = .flushing
  · rw [hflush] at hs ⊢
    obtain ⟨hflushing, hbegin, hall⟩ := hs
    rcases Dispatcher.flushing_step hinv.post hflushing hbegin hshutdown h with hflushing
      | ⟨hidle, hdone⟩
    · have hne : d.loop ≠ .idle := fun hidle ↦ by
        rw [Dispatcher.Flushing, hidle] at hflushing
        exact hflushing
      simp only [hne, and_false, if_false]
      exact ⟨hflushing, hbegin.trans hposted, hall⟩
    · simp only [hidle, and_self, if_true]
      exact ⟨hdone, hall⟩
  · simp only [hflush, false_and, if_false]
    split at hs
    · exact absurd ‹_› hflush
    · exact ⟨hs.1.trans (Dispatcher.executed_prefix_step h), hs.2⟩
    · trivial

/-- Another thread does not let the main thread return. -/
theorem Flushed.of_thread {a : Action (ServerThread W)} {d : Dispatcher (ServerThread W)}
    (hs : s.Flushed) (ha : a.thread.isSome = true) (h : dispatcherStep a s.dispatcher = some d) :
    ({ s with dispatcher := d } : ServerRun W L).Flushed := by
  have hposted : s.dispatcher.posted <+: d.posted := posted_step h ▸ List.prefix_append _ _
  have hexecuted : d.executed = s.dispatcher.executed := by
    have hnone : a.executes s.dispatcher = none := by
      by_contra hsome
      obtain ⟨cb, hcb⟩ := Option.ne_none_iff_exists'.1 hsome
      rw [(Dispatcher.ofLoop_of_executes hcb).2] at ha
      cases ha
    rw [Dispatcher.executed_step h, hnone, Option.toList_none, List.append_nil]
  rw [Flushed] at hs ⊢
  match hroutine : s.routine with
  | .flushing =>
    rw [hroutine] at hs
    refine ⟨?_, hs.2.1.trans hposted, hs.2.2⟩
    rw [Dispatcher.Flushing, Dispatcher.loop_of_thread ha h, hexecuted]
    exact hs.1
  | .looping =>
    rw [hroutine] at hs
    exact ⟨hexecuted ▸ hs.1, hs.2⟩
  | .initializing | .posting | .scheduling | .running => trivial

theorem eq_of_notifyStartup {cb : ℕ} (h : mainTask W L cb = some .notifyStartup) : cb = W * L := by
  rw [mainTask] at h
  split_ifs at h with hlt heq
  · cases h
  · exact heq

/-- A step of the main dispatcher keeps the order, and the notification finds the reports behind it.
-/
theorem Ordered.mainDispatcher {a : Action (ServerThread W)} {d : Dispatcher (ServerThread W)}
    (hs : s.Ordered) (hinv : s.Inv) (hinvoked : (∀ p, p ∈ s.reported) → s.invoked = 1)
    (hmay : s.mayTake a = true) (hother : ∀ cb ∈ a.appends, W * L < cb)
    (h : dispatcherStep a s.dispatcher = some d) :
    ((s.setDispatcher d).runMain ((a.executes s.dispatcher).bind (mainTask W L))).Ordered := by
  have hreported : d.executed.filterMap (reportOf W L) =
      s.reported ++ ((a.executes s.dispatcher).bind (reportOf W L)).toList := by
    rw [Dispatcher.executed_step h, List.filterMap_append, hs.reported, Dispatcher.toList_bind]
  have hnotify : ∀ before after, d.posted = before ++ W * L :: after →
      ∀ p, p ∈ before.filterMap (reportOf W L) := by
    rw [posted_step h]
    exact fun before after ↦ mem_of_append_cons hs.notify fun hmem ↦
      absurd (hother _ hmem) (Nat.lt_irrefl _)
  have hflushed : (s.setDispatcher d).Flushed := by
    refine hs.flushed.setDispatcher hinv ?_ h
    rintro rfl
    cases hmay
  rw [bind_reportOf] at hreported
  match htask : (a.executes s.dispatcher).bind (mainTask W L) with
  | none =>
    rw [htask] at hreported
    exact ⟨(List.append_nil _).symm.trans hreported.symm, hs.workersStarted, hnotify, hflushed,
      hs.notified⟩
  | some (.report p) =>
    rw [htask] at hreported
    refine ⟨hreported.symm, fun hpos ↦ ?_, hnotify, hflushed, hs.notified⟩
    show (s.workersStarted || decide (s.listenersPendingInit - 1 = 0)) = true
    by_cases hzero : s.listenersPendingInit - 1 = 0
    · rw [decide_eq_true hzero, Bool.or_true]
    · have hsame : 0 < s.invoked := by
        simpa [runMain, ServerRun.setDispatcher, hzero] using hpos
      rw [hs.workersStarted hsame, Bool.true_or]
  | some .notifyStartup =>
    rw [htask] at hreported
    refine ⟨(List.append_nil _).symm.trans hreported.symm, hs.workersStarted, hnotify, hflushed,
      fun b hb ↦ ?_⟩
    obtain rfl : s.workersStarted = b := Option.some.inj hb
    refine hs.workersStarted (Nat.lt_of_lt_of_eq Nat.zero_lt_one (hinvoked fun p ↦ ?_).symm)
    obtain ⟨cb, hcb, hnotification⟩ := Option.bind_eq_some_iff.1 htask
    obtain ⟨cbs, hqueue⟩ := Dispatcher.exists_queue_of_executes hcb
    rw [hs.reported]
    refine hs.notify _ cbs ?_ p
    rw [hinv.post.posted_eq, hqueue, eq_of_notifyStartup hnotification]

/-- A step of the server keeps the order. -/
theorem Ordered.step {a : ServerAction W} (hs : s.Ordered) (hinv : s.Inv)
    (hinvoked : (∀ p, p ∈ s.reported) → s.invoked = 1)
    (hsent : s.program = [] → ∀ p, p ∈ s.dispatcher.posted.filterMap (reportOf W L))
    (h : serverStep a s = some s') : s'.Ordered := by
  have hexecuted {b : Action (ServerThread W)} {d : Dispatcher (ServerThread W)}
      (hd : dispatcherStep b s.dispatcher = some d) (hexecutes : b.executes s.dispatcher = none) :
      s.reported = d.executed.filterMap (reportOf W L) := by
    rw [Dispatcher.executed_step hd, hexecutes, Option.toList_none, List.append_nil, hs.reported]
  cases Step.of_step h with
  | addListenerToWorker | start | wait | threadRoutine =>
    exact ⟨hs.reported, hs.workersStarted, hs.notify, hs.flushed, hs.notified⟩
  | @workerDispatcher w a impl =>
    match (a.executes (s.workers w).impl.dispatcher).bind (workerTask L) with
    | none | some .workerStartedRunning | some (.addListener l) =>
      exact ⟨hs.reported, hs.workersStarted, hs.notify, hs.flushed, hs.notified⟩
  | started => exact ⟨hs.reported, hs.workersStarted, hs.notify, trivial, hs.notified⟩
  | @posting d hroutine hdispatcher =>
    have hprogram := hinv.program (by rw [hroutine]; decide)
    refine ⟨hexecuted hdispatcher rfl, hs.workersStarted, ?_, trivial, hs.notified⟩
    show ∀ before after, d.posted = before ++ W * L :: after → _
    rw [posted_step hdispatcher]
    exact fun before after ↦ mem_of_append_cons hs.notify fun _ ↦ hsent hprogram
  | @scheduling d hroutine hdispatcher =>
    have hposted : d.posted = s.dispatcher.posted :=
      (posted_step hdispatcher).trans (List.append_nil _)
    refine ⟨hexecuted hdispatcher rfl, hs.workersStarted, ?_, trivial, hs.notified⟩
    show ∀ before after, d.posted = before ++ W * L :: after → _
    rw [hposted]
    exact hs.notify
  | @running d hroutine hdispatcher =>
    have hprogram := hinv.program (by rw [hroutine]; decide)
    have hposted : d.posted = s.dispatcher.posted :=
      (posted_step hdispatcher).trans (List.append_nil _)
    have hflushing : d.Flushing s.dispatcher.posted := by
      simp only [dispatcherStep, Option.ite_none_right_eq_some, Option.some.injEq] at hdispatcher
      obtain ⟨-, rfl⟩ := hdispatcher
      trivial
    refine ⟨hexecuted hdispatcher rfl, hs.workersStarted, ?_,
      ⟨hflushing, hposted ▸ List.prefix_rfl, hsent hprogram⟩, hs.notified⟩
    show ∀ before after, d.posted = before ++ W * L :: after → _
    rw [hposted]
    exact hs.notify
  | mainDispatcher hmay hother hdispatcher =>
    exact hs.mainDispatcher hinv hinvoked hmay hother hdispatcher
  | @completion w l d hadding hdispatcher =>
    refine ⟨hexecuted hdispatcher rfl, hs.workersStarted, ?_, ?_, hs.notified⟩
    · show ∀ before after, d.posted = before ++ W * L :: after → _
      rw [posted_step hdispatcher]
      refine fun before after ↦ mem_of_append_cons hs.notify fun hmem ↦ ?_
      exact absurd (List.mem_singleton.1 hmem) (finProdFinEquiv (w, l)).isLt.ne'
    · exact hs.flushed.of_thread (a := .postAppend (some (.worker w)) _) rfl hdispatcher

/-- The order holds in every state that a run reaches. -/
theorem ordered_of_reachable (hpos : 0 < W * L) (hle : W * L ≤ 2 ^ 64)
    (hs : Reachable serverStep (initial W L) s) : s.Ordered :=
  (invariant_of_reachable (I := fun s ↦ Reachable serverStep (initial W L) s ∧ s.Ordered)
    ⟨.refl _ _, ordered_initial W L⟩ (fun _ _ _ h hstep ↦ ⟨h.1.tail _ hstep,
      h.2.step (inv_of_reachable h.1) (invoked_of_reported h.1 hpos hle)
        (posted_of_program h.1 h.2) hstep⟩) hs).2

/-- When `startWorkers` has returned, every listener has been added. -/
theorem completed_of_program (hs : Reachable serverStep (initial W L) s) (hprogram : s.program = [])
    (p : Fin W × Fin L) : p ∈ s.completed := by
  have hreach := startup_of_run (inv_initial W L) hs
  have hinv := Startup.Inv.of_reachable hreach
  exact hinv.completed p.1 p.2 (.inr ((Startup.ordered_of_reachable hreach).sent hinv hprogram p))

/-- The reports have been flushed. -/
theorem Ordered.reported_of_looping (hs : s.Ordered) (hlooping : s.routine = .looping)
    (p : Fin W × Fin L) : p ∈ s.reported := by
  have hflushed := hs.flushed
  rw [Flushed, hlooping] at hflushed
  obtain ⟨hbegin, hall⟩ := hflushed
  rw [hs.reported]
  exact (hbegin.filterMap _).subset (hall p)

/-- **The start of the server.** When `startWorkers` returns, every listener has been added by every
worker, and the report of it has been posted to the main thread. When the main thread enters its
event loop all reports have been run and the callback has been called, once. And the notification of
the stage `Startup` finds `workers_started_` set, so that the callbacks with a completion are
notified. -/
theorem server_starts (hpos : 0 < W * L) (hle : W * L ≤ 2 ^ 64)
    (hs : Reachable serverStep (initial W L) s) :
    (s.program = [] →
      ∀ p, p ∈ s.completed ∧ p ∈ s.dispatcher.posted.filterMap (reportOf W L)) ∧
      (s.routine = .looping → s.invoked = 1 ∧ ∀ p, p ∈ s.reported) ∧
      ∀ b, s.notified = some b → b = true := by
  have hordered := ordered_of_reachable hpos hle hs
  refine ⟨fun hprogram p ↦ ?_, fun hlooping ↦ ?_, hordered.notified⟩
  · exact ⟨completed_of_program hs hprogram p, posted_of_program hs hordered hprogram p⟩
  · have hreported := hordered.reported_of_looping hlooping
    exact ⟨invoked_of_reported hs hpos hle hreported, hreported⟩

/-- One worker, one listener, up to the event loop of the main thread. -/
def oneWorker : List (ServerAction 1) :=
  [.main, .workerDispatcher theWorker (.postSchedule (some .main)), .main, .threadRoutine theWorker,
    .threadRoutine theWorker,
    .threadRoutine theWorker, .workerDispatcher theWorker .postClear,
      .workerDispatcher theWorker .postTake,
    .workerDispatcher theWorker .postExecute, .completion theWorker,
    .mainDispatcher (.postSchedule (some (.worker theWorker))),
      .workerDispatcher theWorker .postExecute, .main, .main,
    .main, .main, .main, .mainDispatcher .postClear, .mainDispatcher .postTake,
    .mainDispatcher .postExecute, .mainDispatcher .postExecute, .mainDispatcher .postReturn]

theorem server_starts_oneWorker : ∃ s, run serverStep oneWorker (initial 1 1) = some s ∧
    s.notified.isSome = true ∧ s.invoked = 1 ∧ ∀ b, s.notified = some b → b = true := by
  obtain ⟨s, hs, hlooping, hnotified⟩ : ∃ s, run serverStep oneWorker (initial 1 1) = some s ∧
      s.routine = .looping ∧ s.notified.isSome = true :=
    ⟨_, rfl, rfl, rfl⟩
  obtain ⟨-, hinvoked, hall⟩ := server_starts (by decide) (by decide) ⟨oneWorker, hs⟩
  exact ⟨s, hs, hnotified, (hinvoked hlooping).1, hall⟩

end ServerRun

end TcpServer.Server
