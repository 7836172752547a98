import TcpServer.Event.Steps
import TcpServer.Lib.SharedOwner

/-!
# Notification of a lifecycle stage

`notifyCallbacksForStage` calls the callbacks of a stage and then those that take a completion, and
wants `completion_cb` posted once the last of these is done. Nobody counts them: a `Cleanup` that
posts `completion_cb` is held by a `shared_ptr`, the function owns it while it runs, and every
callback gets a functor that owns it too. The functors are copied and destroyed on any thread and in
any order.

The machine runs the function on the dispatcher thread, its owners on all threads, and the
dispatcher with everything else that is going on there. `completion_posted_once` says when the
completion is posted, and `completion_executed` that it then runs without anybody's help.

As the source stands nothing is ever registered: both `registerCallback` return a null pointer, and
their bodies are commented out. The results are about whatever is in the maps, and so they hold of
the empty ones, with which the function posts the completion itself when it returns.
-/

namespace TcpServer.Server

open Machine Event SharedOwner

variable {ι : Type*}

/-- What `notifyCallbacksForStage` is called with and finds: the callbacks of the stage of either
kind, none if the map has no entry for it, `workers_started_` and `completion_cb`. -/
structure Notification where
  /-- The callbacks of the stage without a completion. -/
  stageCallbacks : List ℕ
  /-- Those that take one. -/
  stageCompletableCallbacks : List ℕ
  /-- `workers_started_`. -/
  workersStarted : Bool
  /-- `completion_cb`. -/
  completionCb : ℕ

/-- The callbacks with a completion that are notified. -/
def Notification.completable (n : Notification) : List ℕ :=
  if n.workersStarted then n.stageCompletableCallbacks else []

/-- Where `notifyCallbacksForStage` is: in its first loop, in its second one, or past it. -/
inductive Place
  | calling (rest : List ℕ)
  | notifying (rest : List ℕ)
  | returned
deriving DecidableEq

/-- The call of `notifyCallbacksForStage`, the owners of `cb_guard` and the dispatcher. The
function's own `cb_guard` is the owner `none`, and the functors it hands out are `some o`. -/
structure Notifier (ι : Type*) where
  /-- Where the function is. -/
  place : Place
  /-- The owners of `cb_guard`. -/
  owners : List (Option ℕ) := []
  /-- The dispatcher on which the completion is posted. -/
  dispatcher : Dispatcher ι
  /-- History: the callbacks called, of the one kind and of the other. -/
  called : List ℕ := []
  /-- The callbacks with a completion that have been called. -/
  notified : List ℕ := []

/-- A step of the function, of a thread that copies or destroys a functor, or of the dispatcher. -/
inductive Notify (ι : Type*)
  | callback
  | makeGuard
  | callbackWithCompletion (functor : ℕ)
  | leave
  | copyFunctor (functor copied : ℕ)
  | destroyFunctor (thread : Option ι) (functor : ℕ)
  | dispatcher (a : Action ι)

namespace Notifier

/-- The state on entry. -/
def enter (n : Notification) (d : Dispatcher ι) : Notifier ι :=
  { place := .calling n.stageCallbacks, dispatcher := d }

variable [DecidableEq ι]

/-- An owner of `cb_guard` goes on a thread. The last one takes the `Cleanup` with it, whose
destructor calls `dispatcher_->post(completion_cb)` there. -/
def release (n : Notification) (thread : Option ι) (owner : Option ℕ) (s : Notifier ι) :
    Option (Notifier ι) :=
  (drop owner s.owners).bind fun owners ↦
    if owners = [] then
      (dispatcherStep (.postAppend thread n.completionCb) s.dispatcher).map fun d ↦
        { s with owners := owners, dispatcher := d }
    else some { s with owners := owners }

end Notifier

/-- One step of the function, of an owner or of the dispatcher. While the function runs the
dispatcher thread is in it, so its loop does not go on; what is posted besides is not the
completion. -/
def notifierStep [DecidableEq ι] (n : Notification) : Notify ι → Notifier ι → Option (Notifier ι)
  | .callback, s =>
    match s.place with
    | .calling (cb :: rest) =>
      if s.dispatcher.mayCall none then
        some { s with place := .calling rest, called := s.called ++ [cb] }
      else none
    | _ => none
  | .makeGuard, s =>
    if s.place = .calling [] ∧ s.dispatcher.mayCall none then
      some { s with place := .notifying n.completable, owners := [none] }
    else none
  | .callbackWithCompletion functor, s =>
    match s.place with
    | .notifying (cb :: rest) =>
      if s.dispatcher.mayCall none then
        (copy none (some functor) s.owners).map fun owners ↦
          { s with place := .notifying rest, owners := owners, notified := s.notified ++ [cb] }
      else none
    | _ => none
  | .leave, s =>
    if s.place = .notifying [] ∧ s.dispatcher.mayCall none then
      (s.release n none none).map fun s' ↦ { s' with place := .returned }
    else none
  | .copyFunctor functor copied, s =>
    (copy (some functor) (some copied) s.owners).map fun owners ↦ { s with owners := owners }
  | .destroyFunctor thread functor, s => s.release n thread (some functor)
  | .dispatcher a, s =>
    if n.completionCb ∉ a.appends ∧ (s.place = .returned ∨ a.ofLoop = false) then
      (dispatcherStep a s.dispatcher).map fun d ↦ { s with dispatcher := d }
    else none

namespace Notifier

variable {n : Notification}

/-- How often the completion has been posted. -/
def completions (n : Notification) (s : Notifier ι) : ℕ := s.dispatcher.posted.count n.completionCb

/-- What has been called where the function is, and the guard with its owners: not made yet, owned
by the function, or owned by functors only. -/
def Progress (n : Notification) (s : Notifier ι) : Prop :=
  match s.place with
  | .calling rest => n.stageCallbacks = s.called ++ rest ∧ s.notified = [] ∧ s.owners = [] ∧
      s.completions n = 0
  | .notifying rest => n.stageCallbacks = s.called ∧ n.completable = s.notified ++ rest ∧
      none ∈ s.owners ∧ Once s.owners (s.completions n)
  | .returned => n.stageCallbacks = s.called ∧ n.completable = s.notified ∧ none ∉ s.owners ∧
      Once s.owners (s.completions n)

theorem Progress.of_eq {s s' : Notifier ι} (hs : s.Progress n) (hplace : s'.place = s.place)
    (hcalled : s'.called = s.called) (hnotified : s'.notified = s.notified)
    (howners : s'.owners = s.owners) (hcompletions : s'.completions n = s.completions n) :
    s'.Progress n := by
  rw [Progress, hplace, hcalled, hnotified, howners, hcompletions]
  exact hs

variable [DecidableEq ι]

/-- An owner that goes is an owner no more, and the completion has been posted once if it was the
last. -/
theorem release_eq_some {thread : Option ι} {owner : Option ℕ} {s s' : Notifier ι}
    (h : s.release n thread owner = some s') (honce : Once s.owners (s.completions n)) :
    s'.place = s.place ∧ s'.called = s.called ∧ s'.notified = s.notified ∧
      (∀ o, o ∈ s'.owners ↔ o ≠ owner ∧ o ∈ s.owners) ∧ Once s'.owners (s'.completions n) := by
  obtain ⟨owners, hdrop, h⟩ := Option.bind_eq_some_iff.1 h
  obtain ⟨hzero, honce'⟩ := honce.drop hdrop
  have howners := honce.mem_of_drop hdrop
  split_ifs at h with hlast
  · obtain ⟨d, hd, rfl⟩ := Option.map_eq_some_iff.1 h
    refine ⟨rfl, rfl, rfl, howners, ?_⟩
    have hposted : d.posted.count n.completionCb = 1 := by
      rw [posted_step hd, Action.appends, List.count_append, List.count_singleton_self]
      exact congrArg (· + 1) hzero
    rw [if_pos hlast] at honce'
    rw [Notifier.completions, hposted]
    exact honce'
  · obtain rfl := Option.some.inj h
    refine ⟨rfl, rfl, rfl, howners, ?_⟩
    rw [if_neg hlast] at honce'
    show Once owners (s.completions n)
    rw [hzero]
    exact honce'

/-- A step keeps the account of what has been called and of who owns the guard. -/
theorem progress_step {a : Notify ι} {s s' : Notifier ι} (hs : s.Progress n)
    (h : notifierStep n a s = some s') : s'.Progress n := by
  cases a <;> simp only [notifierStep] at h
  case callback =>
    split at h
    · rename_i cb rest hplace
      obtain ⟨-, h⟩ := Option.ite_none_right_eq_some.1 h
      obtain rfl := Option.some.inj h
      rw [Progress, hplace] at hs
      exact ⟨by rw [hs.1, List.append_assoc]; rfl, hs.2⟩
    · cases h
  case makeGuard =>
    obtain ⟨⟨hplace, -⟩, h⟩ := Option.ite_none_right_eq_some.1 h
    obtain rfl := Option.some.inj h
    rw [Progress, hplace] at hs
    obtain ⟨hcalled, hnotified, -, hzero⟩ := hs
    have hcount : s.dispatcher.posted.count n.completionCb = 0 := hzero
    refine ⟨by rw [hcalled, List.append_nil], ?_, List.mem_singleton_self _, ?_⟩
    · show n.completable = s.notified ++ n.completable
      rw [hnotified, List.nil_append]
    · show Once [none] (s.dispatcher.posted.count n.completionCb)
      exact hcount ▸ once_singleton none
  case callbackWithCompletion functor =>
    split at h
    · rename_i cb rest hplace
      obtain ⟨-, h⟩ := Option.ite_none_right_eq_some.1 h
      obtain ⟨owners, hcopy, rfl⟩ := Option.map_eq_some_iff.1 h
      rw [Progress, hplace] at hs
      obtain ⟨hcalled, hnotified, -, honce⟩ := hs
      obtain ⟨hmem, howners⟩ := mem_of_copy hcopy
      refine ⟨hcalled, by rw [hnotified, List.append_assoc]; rfl, ?_, (honce.copy hcopy).1⟩
      exact (howners none).2 (.inr hmem)
    · cases h
  case leave =>
    obtain ⟨⟨hplace, -⟩, h⟩ := Option.ite_none_right_eq_some.1 h
    obtain ⟨t, ht, rfl⟩ := Option.map_eq_some_iff.1 h
    rw [Progress, hplace] at hs
    obtain ⟨hcalled, hnotified, -, honce⟩ := hs
    obtain ⟨-, hcalled', hnotified', howners, honce'⟩ := release_eq_some ht honce
    refine ⟨hcalled.trans hcalled'.symm, ?_, ?_, honce'⟩
    · exact hnotified.trans (by rw [List.append_nil, hnotified'])
    · exact fun hmem ↦ ((howners none).1 hmem).1 rfl
  case copyFunctor functor copied =>
    obtain ⟨owners, hcopy, rfl⟩ := Option.map_eq_some_iff.1 h
    obtain ⟨hmem, howners⟩ := mem_of_copy hcopy
    rcases hplace : s.place with rest | rest | - <;>
      simp only [Progress, hplace] at hs ⊢
    · rw [hs.2.2.1] at hmem
      exact absurd hmem List.not_mem_nil
    · exact ⟨hs.1, hs.2.1, (howners none).2 (.inr hs.2.2.1), (hs.2.2.2.copy hcopy).1⟩
    · refine ⟨hs.1, hs.2.1, fun hnone ↦ ?_, (hs.2.2.2.copy hcopy).1⟩
      rcases (howners none).1 hnone with heq | hold
      · exact absurd heq (by simp)
      · exact hs.2.2.1 hold
  case destroyFunctor thread functor =>
    rcases hplace : s.place with rest | rest | - <;> rw [Progress, hplace] at hs
    · obtain ⟨owners, hdrop, -⟩ := Option.bind_eq_some_iff.1 h
      simp [drop, hs.2.2.1] at hdrop
    · obtain ⟨hplace', hcalled', hnotified', howners, honce'⟩ := release_eq_some h hs.2.2.2
      rw [Progress, hplace', hplace]
      refine ⟨hs.1.trans hcalled'.symm, hnotified'.symm ▸ hs.2.1, ?_, honce'⟩
      exact (howners none).2 ⟨by simp, hs.2.2.1⟩
    · obtain ⟨hplace', hcalled', hnotified', howners, honce'⟩ := release_eq_some h hs.2.2.2
      rw [Progress, hplace', hplace]
      refine ⟨hs.1.trans hcalled'.symm, hnotified'.symm ▸ hs.2.1, ?_, honce'⟩
      exact fun hmem ↦ hs.2.2.1 ((howners none).1 hmem).2
  case dispatcher a =>
    obtain ⟨⟨hother, -⟩, h⟩ := Option.ite_none_right_eq_some.1 h
    obtain ⟨d, hd, rfl⟩ := Option.map_eq_some_iff.1 h
    have hcount : ({ s with dispatcher := d } : Notifier ι).completions n = s.completions n := by
      simp only [completions, posted_step hd, List.count_append, List.count_eq_zero.2 hother,
        Nat.add_zero]
    exact hs.of_eq rfl rfl rfl rfl hcount

/-- A step leaves the dispatcher alone or is one of its own steps. -/
theorem dispatcher_step {a : Notify ι} {s s' : Notifier ι} (h : notifierStep n a s = some s') :
    s'.dispatcher = s.dispatcher ∨ ∃ b, dispatcherStep b s.dispatcher = some s'.dispatcher := by
  have hrelease {thread : Option ι} {owner : Option ℕ} {t : Notifier ι}
      (h : s.release n thread owner = some t) :
      t.dispatcher = s.dispatcher ∨ ∃ b, dispatcherStep b s.dispatcher = some t.dispatcher := by
    obtain ⟨owners, -, h⟩ := Option.bind_eq_some_iff.1 h
    split_ifs at h
    · obtain ⟨d, hd, rfl⟩ := Option.map_eq_some_iff.1 h
      exact .inr ⟨_, hd⟩
    · exact .inl (Option.some.inj h ▸ rfl)
  cases a <;> simp only [notifierStep] at h
  case callback =>
    split at h
    · obtain ⟨-, h⟩ := Option.ite_none_right_eq_some.1 h
      exact .inl (Option.some.inj h ▸ rfl)
    · cases h
  case makeGuard =>
    obtain ⟨-, h⟩ := Option.ite_none_right_eq_some.1 h
    exact .inl (Option.some.inj h ▸ rfl)
  case callbackWithCompletion functor =>
    split at h
    · obtain ⟨-, h⟩ := Option.ite_none_right_eq_some.1 h
      obtain ⟨owners, -, rfl⟩ := Option.map_eq_some_iff.1 h
      exact .inl rfl
    · cases h
  case leave =>
    obtain ⟨-, h⟩ := Option.ite_none_right_eq_some.1 h
    obtain ⟨t, ht, rfl⟩ := Option.map_eq_some_iff.1 h
    exact (hrelease ht :)
  case copyFunctor functor copied =>
    obtain ⟨owners, -, rfl⟩ := Option.map_eq_some_iff.1 h
    exact .inl rfl
  case destroyFunctor thread functor => exact hrelease h
  case dispatcher b =>
    obtain ⟨-, h⟩ := Option.ite_none_right_eq_some.1 h
    obtain ⟨d, hd, rfl⟩ := Option.map_eq_some_iff.1 h
    exact .inr ⟨b, hd⟩

/-- A state that a call of the function leads to, from any state of the dispatcher. -/
def Called (n : Notification) (s : Notifier ι) : Prop :=
  ∃ d : Dispatcher ι, Reachable dispatcherStep {} d ∧ n.completionCb ∉ d.posted ∧
    Reachable (notifierStep n) (enter n d) s

theorem Called.progress {s : Notifier ι} (hs : Called n s) : s.Progress n := by
  obtain ⟨d, -, hnew, hs⟩ := hs
  exact invariant_of_reachable ⟨rfl, rfl, rfl, List.count_eq_zero.2 hnew⟩
    (fun _ _ _ ↦ progress_step) hs

/-- Its dispatcher is in a state that a run of the dispatcher reaches. -/
theorem Called.dispatcher {s : Notifier ι} (hs : Called n s) :
    Reachable dispatcherStep {} s.dispatcher := by
  obtain ⟨d, hd, -, hs⟩ := hs
  refine invariant_of_reachable (I := fun s ↦ Reachable dispatcherStep {} s.dispatcher) hd
    (fun a s s' hreach h ↦ ?_) hs
  rcases dispatcher_step h with heq | ⟨b, hb⟩
  · exact heq ▸ hreach
  · exact hreach.tail dispatcherStep hb

end Notifier
/-- **The completion is posted once, after everything.** In every state that a call of
`notifyCallbacksForStage` leads to, whatever the owners of its guard and the rest of the program do
in between: the callbacks are called in order and those with a completion after them; the completion
has been posted if the function has returned and no functor is left, and not otherwise, and then all
of them have been called. -/
theorem completion_posted_once [DecidableEq ι] {n : Notification} {s : Notifier ι}
    (hs : Notifier.Called n s) :
    s.called <+: n.stageCallbacks ∧ s.notified <+: n.completable ∧
      (s.notified ≠ [] → s.called = n.stageCallbacks) ∧
      s.completions n = (if s.place = .returned ∧ s.owners = [] then 1 else 0) ∧
      (s.completions n = 1 → s.called = n.stageCallbacks ∧ s.notified = n.completable) := by
  have hprogress := hs.progress
  rcases hplace : s.place with rest | rest | - <;> rw [Notifier.Progress, hplace] at hprogress
  · obtain ⟨hcalled, hnotified, -, hzero⟩ := hprogress
    refine ⟨hcalled ▸ List.prefix_append _ _, hnotified ▸ List.nil_prefix,
      fun hne ↦ absurd hnotified hne, ?_, fun hone ↦ ?_⟩
    · simpa using hzero
    · omega
  · obtain ⟨hcalled, hnotified, hown, honce⟩ := hprogress
    have hzero : s.completions n = 0 := by
      rw [honce.released, if_neg (List.ne_nil_of_mem hown)]
    refine ⟨hcalled ▸ List.prefix_rfl, hnotified ▸ List.prefix_append _ _, fun _ ↦ hcalled.symm, ?_,
      fun hone ↦ ?_⟩
    · simpa using hzero
    · omega
  · obtain ⟨hcalled, hnotified, -, honce⟩ := hprogress
    refine ⟨hcalled ▸ List.prefix_rfl, hnotified ▸ List.prefix_rfl, fun _ ↦ hcalled.symm, ?_,
      fun _ ↦ ⟨hcalled.symm, hnotified.symm⟩⟩
    simpa using honce.released

/-- Two callbacks with a completion; the second hands its functor to another thread, and it is the
last one to go. -/
def handedOver : List (Notify Bool) :=
  [.callback, .makeGuard, .callbackWithCompletion 0, .callbackWithCompletion 1, .copyFunctor 1 2,
    .leave, .destroyFunctor none 1, .destroyFunctor none 0, .destroyFunctor (some true) 2]

/-- One callback of the stage, and two that take a completion. -/
def twoCompletable : Notification := ⟨[5], [6, 7], true, 9⟩

theorem completion_posted_once_handedOver :
    ∃ s, Machine.run (notifierStep twoCompletable) handedOver (.enter twoCompletable {}) = some s ∧
      s.dispatcher.posted = [9] ∧
      (s.completions twoCompletable = 1 → s.called = [5] ∧ s.notified = [6, 7]) :=
  ⟨_, rfl, rfl, (completion_posted_once
    ⟨{}, .refl _ _, List.not_mem_nil, handedOver, rfl⟩).2.2.2.2⟩

/-- **The completion runs.** Once `notifyCallbacksForStage` has returned and no functor is left, the
steps that the dispatcher and its callers have under way are finitely many in any order before
`shutdown`, and when none is left the completion has been executed, once. -/
theorem completion_executed [DecidableEq ι] [Fintype ι] {n : Notification} {s : Notifier ι}
    (hs : Notifier.Called n s) (hreturned : s.place = .returned) (howners : s.owners = [])
    (hshutdown : s.dispatcher.shutdownPhase = false) :
    Settles dispatcherStep Action.Continues (fun d ↦ d.executed.count n.completionCb = 1)
      s.dispatcher.work s.dispatcher := by
  have hposted : s.completions n = 1 := by
    have hprogress := hs.progress
    rw [Notifier.Progress, hreturned] at hprogress
    rw [hprogress.2.2.2.released, if_pos howners]
  have harmed := Dispatcher.armed_of_reachable hs.dispatcher hshutdown
  refine settles_of_measure (P := Action.Continues)
    (I := fun d ↦ d.Armed ∧ d.posted.count n.completionCb = 1) (fun _ _ _ hd ha h ↦ ?_)
    (fun _ _ _ hd ha h ↦ Dispatcher.work_lt hd.1.deferred ha h) (fun d hd hstuck ↦ ?_)
    ⟨harmed, hposted⟩
  · exact ⟨hd.1.step ha h, posted_of_continues ha h ▸ hd.2⟩
  · rw [(Dispatcher.rests_of_stuck hd.1 hstuck).executed]
    exact hd.2

theorem completion_executed_handedOver :
    ∃ s, Machine.run (notifierStep twoCompletable) handedOver (.enter twoCompletable {}) = some s ∧
      s.dispatcher.executed = [] ∧
      Settles dispatcherStep Action.Continues (fun d ↦ d.executed.count 9 = 1) s.dispatcher.work
        s.dispatcher :=
  ⟨_, rfl, rfl, completion_executed (n := twoCompletable)
    ⟨{}, .refl _ _, List.not_mem_nil, handedOver, rfl⟩ rfl rfl rfl⟩

end TcpServer.Server
