import TcpServer.Event.Drain

/-!
# What a step of the dispatcher can do to its histories

Whoever composes the dispatcher with something else asks the same few questions of a step: whose it
is, what it posts, what it executes, and whether it can move the loop. These are the answers, once
for all actions.

Seen from outside the dispatcher is a queue: some steps append, one executes the front, and no other
step changes the queue (`queue_step`). A worker and the server's main thread are compositions of
that kind, and their invariants are about the callbacks of their own in the queue, picked out by a
function (`filterMap_queue_step`).
-/

namespace TcpServer.Event

open Machine Dispatcher

variable {ι : Type*}

/-- A step of the dispatcher thread's own, outside any callback it is running. -/
def Action.ofLoop : Action ι → Bool
  | .postAppend .. | .postSchedule _ | .deleteAppend .. | .deleteSchedule _ | .deferredDelete _
  | .clearDeferredDeleteList | .passReset | .passEnd => false
  | _ => true

/-- The thread that takes the step. -/
def Action.thread : Action ι → Option ι
  | .postAppend t _ | .postSchedule t | .deleteAppend t _ | .deleteSchedule t => t
  | _ => none

/-- The callbacks that an action appends to the post queue. -/
def Action.appends : Action ι → List ℕ
  | .postAppend _ callback => [callback]
  | _ => []

/-- The callback that an action executes. -/
def Action.executes (a : Action ι) (s : Dispatcher ι) : Option ℕ :=
  match a with
  | .postExecute => s.batch.head?
  | _ => none

/-- The callbacks that have been posted and are still to be executed. -/
def Dispatcher.queue (s : Dispatcher ι) : List ℕ := s.batch ++ s.postCallbacks

/-- What is posted is what the actions append. -/
theorem posted_step [DecidableEq ι] {a : Action ι} {s s' : Dispatcher ι}
    (h : dispatcherStep a s = some s') : s'.posted = s.posted ++ a.appends := by
  rcases ha : a.isPost with - | -
  · have happends : a.appends = [] := by cases a <;> first | rfl | simp [Action.isPost] at ha
    rw [happends, List.append_nil]
    exact (Dispatcher.post_frame ha h).posted
  cases a <;> simp only [Action.isPost, reduceCtorEq] at ha <;>
    simp only [dispatcherStep, Option.ite_none_right_eq_some, Option.some.injEq] at h <;>
    simp only [Action.appends, List.append_nil]
  case postAppend t cb =>
    obtain ⟨-, rfl⟩ := h
    rfl
  case postSchedule t =>
    split at h
    · exact Option.some.inj h ▸ rfl
    · cases h
  case postFire =>
    obtain ⟨-, h⟩ := h
    obtain ⟨cb, -, rfl⟩ := Option.map_eq_some_iff.1 h
    rfl
  case postClear =>
    obtain ⟨-, rfl⟩ := h
    obtain ⟨_, _, _, heq⟩ := s.clearDeferredDeleteList_frame
    rw [heq]
  case postExecute =>
    split at h
    · obtain ⟨-, rfl⟩ := by simpa using h
      rfl
    · cases h
  case run | postTake | postReturn =>
    obtain ⟨-, rfl⟩ := h
    rfl

theorem Action.Continues.appends {a : Action ι} (ha : a.Continues) : a.appends = [] := by
  cases a <;> first | rfl | exact ha.elim

/-- Nothing is posted by what is only under way. -/
theorem posted_of_continues [DecidableEq ι] {a : Action ι} {s s' : Dispatcher ι} (ha : a.Continues)
    (h : dispatcherStep a s = some s') : s'.posted = s.posted := by
  rw [posted_step h, ha.appends, List.append_nil]

namespace Dispatcher

variable [DecidableEq ι] {a : Action ι} {s s' : Dispatcher ι}

omit [DecidableEq ι] in
theorem ofLoop_of_thread (ha : a.thread.isSome = true) : a.ofLoop = false := by
  cases a <;> first | rfl | cases ha

/-- The loop is moved by its own steps. -/
theorem loop_of_ofLoop (ha : a.ofLoop = false) (h : dispatcherStep a s = some s') :
    s'.loop = s.loop := by
  cases a <;> simp only [Action.ofLoop, reduceCtorEq] at ha <;>
    simp only [dispatcherStep, Option.ite_none_right_eq_some, Option.some.injEq] at h
  case postAppend | deleteAppend =>
    obtain ⟨-, rfl⟩ := h
    rfl
  case postSchedule | deleteSchedule =>
    split at h
    · exact Option.some.inj h ▸ rfl
    · cases h
  case deferredDelete o =>
    obtain ⟨-, rfl⟩ := h
    obtain ⟨_, _, _, _, heq⟩ := s.deferredDelete_frame o
    rw [heq]
  case clearDeferredDeleteList =>
    obtain ⟨-, rfl⟩ := h
    obtain ⟨_, _, _, heq⟩ := s.clearDeferredDeleteList_frame
    rw [heq]
  case passReset | passEnd =>
    split at h
    · obtain ⟨-, rfl⟩ := by simpa using h
      rfl
    · cases h

/-- Another thread does not move the loop. -/
theorem loop_of_thread (ha : a.thread.isSome = true) (h : dispatcherStep a s = some s') :
    s'.loop = s.loop :=
  loop_of_ofLoop (ofLoop_of_thread ha) h

/-- Nor does it touch the passes and the calls of the dispatcher thread. -/
theorem own_of_thread (ha : a.thread.isSome = true) (h : dispatcherStep a s = some s') :
    s'.pass = s.pass ∧ s'.caller none = s.caller none := by
  have hne {t : Option ι} (ht : t.isSome = true) (c : Caller) :
      Function.update s.caller t c none = s.caller none :=
    Function.update_of_ne (by rintro rfl; cases ht) c s.caller
  cases a <;> simp only [Action.thread, Option.isSome_none, reduceCtorEq] at ha <;>
    simp only [dispatcherStep, Option.ite_none_right_eq_some, Option.some.injEq] at h
  case postAppend | deleteAppend =>
    obtain ⟨-, rfl⟩ := h
    exact ⟨rfl, hne ha _⟩
  case postSchedule | deleteSchedule =>
    split at h
    · exact Option.some.inj h ▸ ⟨rfl, hne ha _⟩
    · cases h

/-- What is executed is the next callback of the batch. -/
theorem executed_step (h : dispatcherStep a s = some s') :
    s'.executed = s.executed ++ (a.executes s).toList := by
  rcases ha : a.isPost with - | -
  · have hexecutes : a.executes s = none := by cases a <;> first | rfl | simp [Action.isPost] at ha
    rw [hexecutes, Option.toList_none, List.append_nil]
    exact (post_frame ha h).executed
  cases a <;> simp only [Action.isPost, reduceCtorEq] at ha <;>
    simp only [dispatcherStep, Option.ite_none_right_eq_some, Option.some.injEq] at h <;>
    simp only [Action.executes, Option.toList_none, List.append_nil]
  case postSchedule t =>
    split at h
    · exact Option.some.inj h ▸ rfl
    · cases h
  case postFire =>
    obtain ⟨-, h⟩ := h
    obtain ⟨cb, -, rfl⟩ := Option.map_eq_some_iff.1 h
    rfl
  case postClear =>
    obtain ⟨-, rfl⟩ := h
    obtain ⟨_, _, _, heq⟩ := s.clearDeferredDeleteList_frame
    rw [heq]
  case postExecute =>
    split at h
    · rename_i cb cbs hloop
      obtain ⟨-, rfl⟩ := by simpa using h
      simp [batch, hloop]
    · cases h
  case postAppend | run | postTake | postReturn =>
    obtain ⟨-, rfl⟩ := h
    rfl

omit [DecidableEq ι] in
/-- Only a loop that runs a batch executes something. -/
theorem exists_loop_of_executes {cb : ℕ} (h : a.executes s = some cb) :
    ∃ cbs, s.loop = .postRunning (cb :: cbs) := by
  cases a <;> simp only [Action.executes, reduceCtorEq, batch] at h
  split at h
  · obtain ⟨cbs, rfl⟩ := List.head?_eq_some_iff.1 h
    exact ⟨cbs, ‹_›⟩
  · cases h

omit [DecidableEq ι] in
/-- It is the loop that executes, not a thread. -/
theorem ofLoop_of_executes {cb : ℕ} (h : a.executes s = some cb) :
    a.ofLoop = true ∧ a.thread = none := by
  cases a <;> first | exact ⟨rfl, rfl⟩ | cases h

theorem executed_prefix_step (h : dispatcherStep a s = some s') : s.executed <+: s'.executed :=
  executed_step h ▸ List.prefix_append _ _

omit [DecidableEq ι] in
theorem PostInv.posted_eq (hs : s.PostInv) : s.posted = s.executed ++ s.queue := by
  rw [hs.fifo, queue, List.append_assoc]

/-- **The dispatcher is a queue**, whatever it does besides. -/
theorem queue_step (hs : s.PostInv) (h : dispatcherStep a s = some s') :
    (a.executes s).toList ++ s'.queue = s.queue ++ a.appends := by
  have hposted : s.executed ++ ((a.executes s).toList ++ s'.queue) =
      s.executed ++ (s.queue ++ a.appends) := by
    rw [← List.append_assoc, ← executed_step h, ← (postInv_step hs h).posted_eq, posted_step h,
      hs.posted_eq, List.append_assoc]
  exact List.append_cancel_left hposted

omit [DecidableEq ι] in
/-- What is executed is at the front of the queue. -/
theorem exists_queue_of_executes {cb : ℕ} (h : a.executes s = some cb) :
    ∃ cbs, s.queue = cb :: cbs := by
  obtain ⟨cbs, hloop⟩ := exists_loop_of_executes h
  exact ⟨cbs ++ s.postCallbacks, by rw [queue, batch, hloop]; rfl⟩

/-- One callback, seen through a function that knows some of them. -/
theorem toList_bind {β : Type*} (f : ℕ → Option β) (o : Option ℕ) :
    (o.bind f).toList = o.toList.filterMap f := by
  match o with
  | none => rfl
  | some cb =>
    rw [Option.bind_some, Option.toList_some, List.filterMap_cons]
    cases f cb <;> rfl

/-- `queue_step`, seen so. -/
theorem filterMap_queue_step {β : Type*} (f : ℕ → Option β) (hs : s.PostInv)
    (h : dispatcherStep a s = some s') :
    ((a.executes s).bind f).toList ++ s'.queue.filterMap f =
      s.queue.filterMap f ++ a.appends.filterMap f := by
  rw [toList_bind, ← List.filterMap_append, queue_step hs h, List.filterMap_append]

/-- `shutdown` is not left. -/
theorem shutdownPhase_kept (hs : s.shutdownPhase = true) (h : dispatcherStep a s = some s') :
    s'.shutdownPhase = true ∧ s'.executed = s.executed := by
  have hne {l : Loop} (hl : s.loop = l) (hnot :
      ({ s with loop := l } : Dispatcher ι).shutdownPhase =
      false) : False := by
    rw [shutdownPhase, hl] at hs
    exact Bool.false_ne_true (hnot.symm.trans hs)
  have hexecuted : s'.executed = s.executed := by
    have hnone : a.executes s = none := by
      by_contra hsome
      obtain ⟨cb, hcb⟩ := Option.ne_none_iff_exists'.1 hsome
      obtain ⟨cbs, hloop⟩ := exists_loop_of_executes hcb
      exact hne hloop rfl
    rw [executed_step h, hnone, Option.toList_none, List.append_nil]
  refine ⟨?_, hexecuted⟩
  cases a <;> simp only [dispatcherStep, Option.ite_none_right_eq_some, Option.some.injEq] at h
  case postAppend | deleteAppend =>
    obtain ⟨-, rfl⟩ := h
    exact hs
  case postSchedule | deleteSchedule =>
    split at h
    · exact Option.some.inj h ▸ hs
    · cases h
  case deferredDelete o =>
    obtain ⟨-, rfl⟩ := h
    obtain ⟨_, _, _, _, heq⟩ := s.deferredDelete_frame o
    rw [heq]
    exact hs
  case clearDeferredDeleteList =>
    obtain ⟨-, rfl⟩ := h
    obtain ⟨_, _, _, heq⟩ := s.clearDeferredDeleteList_frame
    rw [heq]
    exact hs
  case passReset | passEnd =>
    split at h
    · obtain ⟨-, rfl⟩ := by simpa using h
      exact hs
    · cases h
  case postFire | deferredFire | threadLocalFire =>
    obtain ⟨⟨-, hloop⟩, -⟩ := h
    exact (hne hloop rfl).elim
  case postExecute | threadLocalPop =>
    split at h
    · rename_i hloop
      exact (hne hloop rfl).elim
    · cases h
  case shutdownPop =>
    split at h
    · obtain ⟨-, rfl⟩ := by simpa using h
      rfl
    · cases h
  case shutdownTake | shutdownReturn =>
    obtain ⟨-, rfl⟩ := h
    rfl
  case run | postClear | postTake | postReturn | deferredClear | threadLocalTake | threadLocalReturn
    | shutdown =>
    obtain ⟨⟨-, hloop⟩, -⟩ := h
    exact (hne hloop rfl).elim

end Dispatcher

end TcpServer.Event
