import TcpServer.Event.Post
import TcpServer.Event.DeferredDelete
import TcpServer.Event.ThreadLocalDelete
import TcpServer.Lib.Threads
import Mathlib.Data.Fintype.Option

/-!
# The dispatcher comes to rest

The three mechanisms of the dispatcher are armed by different people at different moments: a poster
that has appended and not yet scheduled, a deferred deletion in the middle of a pass, a callback
that has cleared its pending flag on its way in. What is promised in the end is that nothing of this
needs another call to get going: as long as nobody asks for anything new, the steps that are left to
the threads and to libevent are finitely many, and when there is none left everything posted has
been executed and everything handed over has been destroyed.

The measure `work` weighs what is left to do, and `rests_of_stuck` puts the invariants of the three
mechanisms together. The deletables need one that their order did not: somebody is on the way to the
list whenever it is not empty (`DeletableArmed`).

The step lemma is `work_lt`: a step of what is under way lowers the measure, where the invariants
say that it does not find more to do than was counted. The rest is a case analysis of the states in
which nothing can go on, and the library's `Settles` puts the two together: all runs are at most as
long as the measure, and each that cannot be continued ends at rest.
-/

namespace TcpServer.Event

open Machine Dispatcher

variable {ι : Type*}

/-- A step of something that is under way: of a call, of a callback of the dispatcher's own, of a
pass, or of libevent. The other actions ask for something new. -/
def Action.Continues : Action ι → Prop
  | .postAppend .. | .deleteAppend .. | .deferredDelete _ | .clearDeferredDeleteList | .run
  | .shutdown => False
  | _ => True

/-- The steps of a call that are left, and what the callback costs that it may schedule. -/
def Caller.ahead : Caller → ℕ
  | .outside => 0
  | .posted _ | .deletable _ => 8

/-- What a control state still costs: one step for each entry, and the way in and out. -/
def Loop.ahead : Loop → ℕ
  | .idle | .down => 0
  | .deferredEntered => 2
  | .postTaking | .threadLocalEntered | .shutdownEntered => 3
  | .postEntered => 5
  | .postRunning l | .threadLocalRunning l | .shutdownRunning l => l.length + 2

/-- What a callback costs that is pending. -/
def SchedulableCallback.ahead (n : ℕ) (cb : SchedulableCallback) : ℕ := bif cb.pending then n else 0

/-- A pending callback costs what its run costs. -/
theorem SchedulableCallback.ahead_of_pending {n : ℕ} {cb : SchedulableCallback}
    (h : cb.pending = true) : cb.ahead n = n := by
  rw [SchedulableCallback.ahead, h, cond_true]

/-- A callback costs at most that. -/
theorem SchedulableCallback.ahead_le (n : ℕ) (cb : SchedulableCallback) : cb.ahead n ≤ n := by
  rw [SchedulableCallback.ahead]
  cases cb.pending
  · exact Nat.zero_le n
  · exact Nat.le_refl n

/-- The turns that are left, and the end of the pass. -/
def Pass.ahead (p : Pass) : ℕ := p.numToDelete - p.index + 1

namespace Dispatcher

/-- `shutdown` has been called. -/
def shutdownPhase (s : Dispatcher ι) : Bool :=
  match s.loop with
  | .shutdownEntered | .shutdownRunning _ | .down => true
  | _ => false

/-- A non-empty list of deletables has somebody who will take it, up to `shutdown`. -/
def DeletableArmed (s : Dispatcher ι) : Prop :=
  s.deletables ≠ [] → s.threadLocalDeleteCb.pending = true ∨ (∃ t, s.caller t = .deletable true) ∨
    s.loop = .threadLocalEntered ∨ s.shutdownPhase = true

/-- Nothing has been asked for that is not done. -/
structure Rests (s : Dispatcher ι) : Prop where
  /-- No code runs, and nobody is in a call. -/
  idle : s.loop = .idle ∧ s.pass = none ∧ ∀ t, s.caller t = .outside
  /-- What was posted has been executed, in order. -/
  executed : s.executed = s.posted
  /-- What was handed over has been destroyed, in order. -/
  destroyed : s.destroyed = s.handed
  /-- What was appended has been destroyed, in order. -/
  deleted : s.deleted = s.appended

/-! ### The deletables are armed

Somebody who has found the list empty owes the scheduling, or has scheduled, or the callback is on
its way in; after `shutdown` the list is no longer taken by anybody.
-/

/-- What keeps the list armed where nobody appends to it. -/
structure ArmedFrame (s s' : Dispatcher ι) : Prop where
  /-- The list. -/
  deletables : s'.deletables = s.deletables
  /-- Its callback. -/
  threadLocalDeleteCb : s'.threadLocalDeleteCb = s.threadLocalDeleteCb
  /-- A thread that owes the scheduling still does. -/
  caller : ∀ t, s.caller t = .deletable true → s'.caller t = .deletable true
  /-- A loop on its way to the list still is. -/
  loop : s.loop = .threadLocalEntered → s'.loop = .threadLocalEntered
  /-- A dispatcher that was shut down still is. -/
  shutdownPhase : s.shutdownPhase = true → s'.shutdownPhase = true

/-- The list stays armed where these are kept. -/
theorem DeletableArmed.of_frame {s s' : Dispatcher ι} (hs : s.DeletableArmed)
    (h : ArmedFrame s s') : s'.DeletableArmed := by
  intro hne
  rw [h.deletables] at hne
  rw [h.threadLocalDeleteCb]
  rcases hs hne with hp | ⟨t, ht⟩ | hl | hd
  · exact .inl hp
  · exact .inr (.inl ⟨t, h.caller t ht⟩)
  · exact .inr (.inr (.inl (h.loop hl)))
  · exact .inr (.inr (.inr (h.shutdownPhase hd)))

variable [DecidableEq ι]

/-- A thread that goes into a call, or comes out of one, is not another thread that owes the
scheduling. -/
theorem setCaller_deletable {s : Dispatcher ι} {t : Option ι} {c : Caller}
    (ht : s.caller t ≠ .deletable true) (u : Option ι) (hu : s.caller u = .deletable true) :
    (s.setCaller t c).caller u = .deletable true := by
  have hne : u ≠ t := by
    rintro rfl
    exact ht hu
  simpa [setCaller, Function.update_of_ne hne] using hu

omit [DecidableEq ι] in
/-- A thread that may start a call owes nothing. -/
theorem caller_of_mayCall {s : Dispatcher ι} {t : Option ι} (h : s.mayCall t) :
    s.caller t ≠ .deletable true := by
  intro ht
  simp [mayCall, ht] at h

/-- Every step keeps the list armed. -/
theorem deletableArmed_step {a : Action ι} {s s' : Dispatcher ι} (hs : s.DeletableArmed)
    (h : dispatcherStep a s = some s') : s'.DeletableArmed := by
  cases a <;> simp only [dispatcherStep, Option.ite_none_right_eq_some, Option.some.injEq] at h
  case postAppend t cb =>
    obtain ⟨hcall, rfl⟩ := h
    exact hs.of_frame ⟨rfl, rfl, setCaller_deletable (caller_of_mayCall hcall), id, id⟩
  case postSchedule t =>
    split at h
    · rename_i doPost ht
      obtain rfl := Option.some.inj h
      exact hs.of_frame ⟨rfl, rfl, setCaller_deletable (by simp [ht]), id, id⟩
    · cases h
  case deleteAppend t d =>
    obtain ⟨hcall, rfl⟩ := h
    intro _
    rcases hq : s.deletables with - | ⟨e, es⟩
    · -- the list was empty: `t` itself now owes the scheduling
      refine .inr (.inl ⟨t, ?_⟩)
      simp [deleteAppend, setCaller, hq]
    · rcases hs (by simp [hq]) with hp | ⟨u, hu⟩ | hl | hd
      · exact .inl hp
      · exact .inr (.inl ⟨u, setCaller_deletable (caller_of_mayCall hcall) u hu⟩)
      · exact .inr (.inr (.inl hl))
      · exact .inr (.inr (.inr hd))
  case deleteSchedule t =>
    split at h
    · rename_i needSchedule ht
      obtain rfl := Option.some.inj h
      cases needSchedule with
      | true => exact fun _ ↦ .inl (by simp [deleteSchedule])
      | false => exact hs.of_frame ⟨rfl, rfl, setCaller_deletable (by simp [ht]), id, id⟩
    · cases h
  case deferredDelete o =>
    obtain ⟨-, rfl⟩ := h
    obtain ⟨_, _, _, _, heq⟩ := s.deferredDelete_frame o
    rw [heq]
    exact hs.of_frame ⟨rfl, rfl, fun _ ↦ id, id, id⟩
  case clearDeferredDeleteList =>
    obtain ⟨-, rfl⟩ := h
    obtain ⟨_, _, _, heq⟩ := s.clearDeferredDeleteList_frame
    rw [heq]
    exact hs.of_frame ⟨rfl, rfl, fun _ ↦ id, id, id⟩
  case passReset | passEnd =>
    split at h
    · obtain ⟨-, rfl⟩ := by simpa using h
      exact hs.of_frame ⟨rfl, rfl, fun _ ↦ id, id, id⟩
    · cases h
  case postFire | deferredFire =>
    obtain ⟨⟨-, hloop⟩, h⟩ := h
    obtain ⟨cb, -, rfl⟩ := Option.map_eq_some_iff.1 h
    exact hs.of_frame ⟨rfl, rfl, fun _ ↦ id, by simp [hloop], by simp [shutdownPhase, hloop]⟩
  case threadLocalFire =>
    obtain ⟨-, h⟩ := h
    obtain ⟨cb, -, rfl⟩ := Option.map_eq_some_iff.1 h
    exact fun _ ↦ .inr (.inr (.inl rfl))
  case postClear | deferredClear =>
    obtain ⟨⟨-, hloop⟩, rfl⟩ := h
    obtain ⟨_, _, _, heq⟩ := s.clearDeferredDeleteList_frame
    rw [heq]
    exact hs.of_frame ⟨rfl, rfl, fun _ ↦ id, by simp [hloop], by simp [shutdownPhase, hloop]⟩
  case postExecute | threadLocalPop | shutdownPop =>
    split at h
    · rename_i hloop
      obtain ⟨-, rfl⟩ := by simpa using h
      exact hs.of_frame ⟨rfl, rfl, fun _ ↦ id, by simp [hloop], by simp [shutdownPhase, hloop]⟩
    · cases h
  case threadLocalTake | shutdownTake =>
    obtain ⟨-, rfl⟩ := h
    exact fun hne ↦ absurd rfl hne
  case run | postTake | postReturn | threadLocalReturn | shutdown | shutdownReturn =>
    obtain ⟨⟨-, hloop⟩, rfl⟩ := h
    exact hs.of_frame ⟨rfl, rfl, fun _ ↦ id, by simp [hloop], by simp [shutdownPhase, hloop]⟩

/-- It is armed in every reachable state. -/
theorem deletableArmed_of_reachable {s : Dispatcher ι} (hs : Reachable dispatcherStep {} s) :
    s.DeletableArmed :=
  invariant_of_reachable (fun h ↦ absurd rfl h) (fun _ _ _ ↦ deletableArmed_step) hs

/-! ### The work left

Each entry of a list counts with the steps that take it out and execute it. A flag that is set
counts with the run of its callback, and a thread in the middle of a call with the flag that it may
set, so that setting it is no increase.
-/

variable [Fintype ι]

/-- What is left to do, where a pending callback counts with the run it will start. -/
def work (s : Dispatcher ι) : ℕ :=
  Threads.work Caller.ahead s.caller + s.loop.ahead + (s.pass.map Pass.ahead).getD 0 +
    2 * (s.vec s.currentFirst).length + s.postCallbacks.length + s.deletables.length +
    s.postCb.ahead 7 + s.deferredDeleteCb.ahead 3 + s.threadLocalDeleteCb.ahead 4

omit [DecidableEq ι] in
/-- Where the loop is counts for itself. -/
theorem work_loop (s : Dispatcher ι) (l : Loop) :
    ({ s with loop := l } : Dispatcher ι).work + s.loop.ahead = s.work + l.ahead := by
  show Threads.work Caller.ahead s.caller + l.ahead + (s.pass.map Pass.ahead).getD 0 +
      2 * (s.vec s.currentFirst).length + s.postCallbacks.length + s.deletables.length +
      s.postCb.ahead 7 + s.deferredDeleteCb.ahead 3 + s.threadLocalDeleteCb.ahead 4 +
      s.loop.ahead = s.work + l.ahead
  rw [work]
  omega

omit [DecidableEq ι] in
/-- Starting a pass is paid for by the vector it walks. -/
theorem work_clear_le {s : Dispatcher ι} (hs : s.DeferredInv) (hpass : s.pass = none) :
    s.clearDeferredDeleteList.work ≤ s.work := by
  obtain ⟨hdeleting, hother⟩ := hs.outside hpass
  unfold clearDeferredDeleteList
  simp only [hdeleting, Bool.false_or, decide_eq_true_eq]
  split_ifs with hzero
  · exact Nat.le_refl _
  · have hcurrent : ({ s with
        currentFirst := !s.currentFirst
        deferredDeleting := true
        pass := some ⟨s.currentFirst, 0, (s.vec s.currentFirst).length⟩ } : Dispatcher ι).vec
          (!s.currentFirst) = [] := hother
    simp only [work, hcurrent, hpass, Pass.ahead, Option.map_some, Option.getD_some,
      Option.map_none, Option.getD_none, List.length_nil]
    omega

omit [DecidableEq ι] in
/-- A step of the loop that lowers its own cost lowers the work. -/
theorem work_loop_lt {s c : Dispatcher ι} (hc : c.work ≤ s.work) (hsame : c.loop = s.loop)
    {l : Loop}
    (hl : l.ahead < s.loop.ahead) : ({ c with loop := l } : Dispatcher ι).work < s.work := by
  have hloop := work_loop c l
  rw [hsame] at hloop
  omega

/-- What a call of `post` adds. -/
theorem work_postAppend {s : Dispatcher ι} {t : Option ι} (h : s.mayCall t) (callback : ℕ) :
    (s.postAppend t callback).work = s.work + 9 := by
  have ht : s.caller t = .outside := of_decide_eq_true (Bool.and_eq_true .. ▸ h).1
  have hcall : Threads.work Caller.ahead (Function.update s.caller t
    (.posted s.postCallbacks.isEmpty)) +
      (s.caller t).ahead = Threads.work Caller.ahead s.caller + 8 :=
        Threads.work_update Caller.ahead
  rw [ht] at hcall
  simp only [Caller.ahead, Nat.add_zero] at hcall
  simp only [work, vec, postAppend, setCaller, List.length_append, List.length_singleton]
  omega

/-- Every step of something that is under way lowers the work. -/
theorem work_lt {a : Action ι} {s s' : Dispatcher ι} (hs : s.DeferredInv) (ha : a.Continues)
    (h : dispatcherStep a s = some s') : s'.work < s.work := by
  cases a <;> simp only [Action.Continues] at ha <;>
    simp only [dispatcherStep, Option.ite_none_right_eq_some, Option.some.injEq] at h
  case postSchedule t | deleteSchedule t =>
    split at h
    · rename_i b ht
      obtain rfl := Option.some.inj h
      have hcall : Threads.work Caller.ahead (Function.update s.caller t .outside) +
          (s.caller t).ahead = Threads.work Caller.ahead s.caller + Caller.outside.ahead :=
        Threads.work_update Caller.ahead
      rw [ht] at hcall
      simp only [Caller.ahead] at hcall
      simp only [work, vec, postSchedule, deleteSchedule, setCaller]
      have hpost : (if b then s.postCb.scheduleCallbackCurrentIteration else s.postCb).ahead 7 ≤
          7 :=
        SchedulableCallback.ahead_le 7 _
      have hdelete : (if b then s.threadLocalDeleteCb.scheduleCallbackCurrentIteration
          else s.threadLocalDeleteCb).ahead 4 ≤ 4 := SchedulableCallback.ahead_le 4 _
      omega
    · cases h
  case passReset =>
    split at h
    · rename_i p hp
      obtain ⟨⟨hlt, -⟩, rfl⟩ := by simpa using h
      have hfirst : s.currentFirst = !p.first := by
        rw [(hs.inside p hp).2.1, Bool.not_not]
      have hvec : (s.passReset p).vec s.currentFirst = s.vec s.currentFirst := by
        rw [hfirst]
        exact vec_setVec_not ..
      have hlen : ((s.passReset p).vec (s.passReset p).currentFirst).length =
          (s.vec s.currentFirst).length := congrArg List.length hvec
      have hpass : (s.passReset p).pass = some { p with index := p.index + 1 } := rfl
      rw [work, work, hlen, hpass, hp]
      simp only [passReset, setVec, Option.map_some, Option.getD_some, Pass.ahead]
      omega
    · cases h
  case passEnd =>
    split at h
    · rename_i p hp
      obtain ⟨⟨heq, -⟩, rfl⟩ := by simpa using h
      have hfirst : s.currentFirst = !p.first := by
        rw [(hs.inside p hp).2.1, Bool.not_not]
      have hvec : (s.passEnd p).vec s.currentFirst = s.vec s.currentFirst := by
        rw [hfirst]
        exact vec_setVec_not ..
      have hlen : ((s.passEnd p).vec (s.passEnd p).currentFirst).length =
          (s.vec s.currentFirst).length := congrArg List.length hvec
      have hpass : (s.passEnd p).pass = none := rfl
      rw [work, work, hlen, hpass, hp]
      simp only [passEnd, setVec, Option.map_some, Option.map_none, Option.getD_some,
        Option.getD_none, Pass.ahead]
      omega
    · cases h
  case postFire | deferredFire | threadLocalFire =>
    obtain ⟨⟨-, hloop⟩, h⟩ := h
    obtain ⟨cb, hcb, rfl⟩ := Option.map_eq_some_iff.1 h
    obtain ⟨hpending, rfl⟩ := SchedulableCallback.fire_eq_some_iff.1 hcb
    have hzero (n : ℕ) : SchedulableCallback.ahead n { pending := false } = 0 := rfl
    simp only [work, vec, hloop, hzero, SchedulableCallback.ahead_of_pending hpending, Loop.ahead]
    omega
  case postClear | deferredClear =>
    obtain ⟨⟨hready, hloop⟩, rfl⟩ := h
    have hsame : s.clearDeferredDeleteList.loop = s.loop := by
      obtain ⟨_, _, _, heq⟩ := s.clearDeferredDeleteList_frame
      rw [heq]
    exact work_loop_lt (work_clear_le hs (pass_eq_none_of_loopReady hready)) hsame
      (by simp [hloop, Loop.ahead])
  case postTake | threadLocalTake | shutdownTake =>
    obtain ⟨⟨-, hloop⟩, rfl⟩ := h
    simp only [work, vec, hloop, Loop.ahead, List.length_nil]
    omega
  case postExecute | threadLocalPop | shutdownPop =>
    split at h
    · rename_i hloop
      obtain ⟨-, rfl⟩ := by simpa using h
      simp only [work, vec, hloop, Loop.ahead, List.length_cons]
      omega
    · cases h
  case postReturn | threadLocalReturn | shutdownReturn =>
    obtain ⟨⟨-, hloop⟩, rfl⟩ := h
    simp only [work, vec, hloop, Loop.ahead, List.length_nil]
    omega

/-! ### Rest

What can still go on is looked for from the inside out: a caller can always finish its call, then a
pass its turn, then the loop its callback, and an idle loop can run any callback that is pending.
-/

omit [Fintype ι] in
/-- Only `shutdown` shuts the dispatcher down. -/
theorem shutdownPhase_step {a : Action ι} {s s' : Dispatcher ι} (ha : a ≠ .shutdown)
    (h : dispatcherStep a s = some s') (hs : s.shutdownPhase = false) :
    s'.shutdownPhase = false := by
  cases a <;> simp only [dispatcherStep, Option.ite_none_right_eq_some, Option.some.injEq] at h
  case shutdown => exact absurd rfl ha
  case postAppend | deleteAppend =>
    obtain ⟨-, rfl⟩ := h
    exact hs
  case postSchedule | deleteSchedule =>
    split at h
    · exact Option.some.inj h ▸ hs
    · cases h
  case deferredDelete o =>
    obtain ⟨-, rfl⟩ := h
    obtain ⟨_, _, _, _, heq⟩ := s.deferredDelete_frame o
    rw [heq]
    exact hs
  case clearDeferredDeleteList =>
    obtain ⟨-, rfl⟩ := h
    obtain ⟨_, _, _, heq⟩ := s.clearDeferredDeleteList_frame
    rw [heq]
    exact hs
  case passReset | passEnd =>
    split at h
    · obtain ⟨-, rfl⟩ := by simpa using h
      exact hs
    · cases h
  case postFire | deferredFire | threadLocalFire =>
    obtain ⟨-, h⟩ := h
    obtain ⟨cb, -, rfl⟩ := Option.map_eq_some_iff.1 h
    rfl
  case postExecute | threadLocalPop =>
    split at h
    · obtain ⟨-, rfl⟩ := by simpa using h
      rfl
    · cases h
  case shutdownPop =>
    split at h
    · rename_i hloop
      simp [shutdownPhase, hloop] at hs
    · cases h
  case shutdownTake | shutdownReturn =>
    obtain ⟨⟨-, hloop⟩, rfl⟩ := h
    simp [shutdownPhase, hloop] at hs
  case run | postClear | postTake | postReturn | deferredClear | threadLocalTake
    | threadLocalReturn =>
    obtain ⟨-, rfl⟩ := h
    rfl

/-- What the mechanisms guarantee together, before `shutdown`. -/
structure Armed (s : Dispatcher ι) : Prop where
  /-- The posted callbacks are in order. -/
  post : s.PostInv
  /-- The two vectors are in order. -/
  deferred : s.DeferredInv
  /-- The deletables are in order. -/
  deletables : s.DeletableInv
  /-- The list of deletables has somebody who takes it. -/
  deletableArmed : s.DeletableArmed
  /-- `shutdown` has not been called. -/
  beforeShutdown : s.shutdownPhase = false

omit [Fintype ι] in
/-- A step of something that is under way keeps all of this. -/
theorem Armed.step {a : Action ι} {s s' : Dispatcher ι} (hs : s.Armed) (ha : a.Continues)
    (h : dispatcherStep a s = some s') : s'.Armed where
  post := postInv_step hs.post h
  deferred := deferredInv_step hs.deferred h
  deletables := deletableInv_step hs.deletables h
  deletableArmed := deletableArmed_step hs.deletableArmed h
  beforeShutdown := shutdownPhase_step (fun heq ↦ by rw [heq] at ha; exact ha) h hs.beforeShutdown

omit [Fintype ι] in
/-- It holds in every reachable state before `shutdown`. -/
theorem armed_of_reachable {s : Dispatcher ι} (hs : Reachable dispatcherStep {} s)
    (hshutdown : s.shutdownPhase = false) : s.Armed := by
  obtain ⟨as, hrun⟩ := hs
  exact ⟨postInv_of_reachable ⟨as, hrun⟩, deferredInv_of_reachable ⟨as, hrun⟩,
    deletableInv_of_run hrun, deletableArmed_of_reachable ⟨as, hrun⟩, hshutdown⟩

omit [Fintype ι] in
/-- A thread in the middle of a call can go on. -/
theorem caller_eq_outside {s : Dispatcher ι} {t : Option ι}
    (hpost : dispatcherStep (.postSchedule t) s = none)
    (hdelete : dispatcherStep (.deleteSchedule t) s = none) : s.caller t = .outside := by
  cases ht : s.caller t with
  | outside => rfl
  | posted doPost => simp [dispatcherStep, ht] at hpost
  | deletable needSchedule => simp [dispatcherStep, ht] at hdelete

omit [Fintype ι] in
/-- And a pass can, outside of the destructors it runs. -/
theorem pass_eq_none {s : Dispatcher ι} (hs : s.DeferredInv) (hcaller : s.caller none = .outside)
    (hreset : dispatcherStep .passReset s = none) (hend : dispatcherStep .passEnd s = none) :
    s.pass = none := by
  cases hp : s.pass with
  | none => rfl
  | some p =>
    obtain ⟨-, -, rest, hwalk⟩ := hs.inside p hp
    have hle : p.index ≤ p.numToDelete := hwalk.size ▸ Nat.le_add_right _ _
    simp only [dispatcherStep, hp, hcaller] at hreset hend
    simp at hreset hend
    omega

omit [Fintype ι] in
/-- Where nothing can go on, no thread is in a call. -/
theorem caller_of_stuck {s : Dispatcher ι} (hstuck : ∀ a, a.Continues → dispatcherStep a s = none)
    (t : Option ι) : s.caller t = .outside :=
  caller_eq_outside (hstuck (.postSchedule t) trivial) (hstuck (.deleteSchedule t) trivial)

omit [Fintype ι] in
/-- There is no pass either. -/
theorem pass_of_stuck {s : Dispatcher ι} (hs : s.DeferredInv)
    (hstuck : ∀ a, a.Continues → dispatcherStep a s = none) : s.pass = none :=
  pass_eq_none hs (caller_of_stuck hstuck none) (hstuck .passReset trivial)
    (hstuck .passEnd trivial)

omit [Fintype ι] in
/-- The loop is ready then. -/
theorem loopReady_of_stuck {s : Dispatcher ι} (hs : s.DeferredInv)
    (hstuck : ∀ a, a.Continues → dispatcherStep a s = none) : s.loopReady = true := by
  simp [loopReady, pass_of_stuck hs hstuck, caller_of_stuck hstuck none]

omit [Fintype ι] in
/-- The loop is idle, since every other control state has a step. -/
theorem loop_of_stuck {s : Dispatcher ι} (hs : s.Armed)
    (hstuck : ∀ a, a.Continues → dispatcherStep a s = none) : s.loop = .idle := by
  have hphase := hs.beforeShutdown
  have hready := loopReady_of_stuck hs.deferred hstuck
  cases hloop : s.loop with
  | idle => rfl
  | postEntered =>
    have hnone := hstuck .postClear trivial
    simp [dispatcherStep, hready, hloop] at hnone
  | postTaking =>
    have hnone := hstuck .postTake trivial
    simp [dispatcherStep, hready, hloop] at hnone
  | postRunning callbacks =>
    have hexecute := hstuck .postExecute trivial
    have hreturn := hstuck .postReturn trivial
    cases callbacks <;> simp [dispatcherStep, hready, hloop] at hexecute hreturn
  | deferredEntered =>
    have hnone := hstuck .deferredClear trivial
    simp [dispatcherStep, hready, hloop] at hnone
  | threadLocalEntered =>
    have hnone := hstuck .threadLocalTake trivial
    simp [dispatcherStep, hready, hloop] at hnone
  | threadLocalRunning toBeDelete =>
    have hpop := hstuck .threadLocalPop trivial
    have hreturn := hstuck .threadLocalReturn trivial
    cases toBeDelete <;> simp [dispatcherStep, hready, hloop] at hpop hreturn
  | shutdownEntered | shutdownRunning _ | down => simp [shutdownPhase, hloop] at hphase

omit [Fintype ι] in
/-- Where nothing can go on, no callback is pending either, so the invariants leave no work. -/
theorem rests_of_stuck {s : Dispatcher ι} (hs : s.Armed)
    (hstuck : ∀ a, a.Continues → dispatcherStep a s = none) : s.Rests := by
  have hcaller := caller_of_stuck hstuck
  have hpass := pass_of_stuck hs.deferred hstuck
  have hready := loopReady_of_stuck hs.deferred hstuck
  have hloop := loop_of_stuck hs hstuck
  have hpost : s.postCallbacks = [] := by
    by_contra hne
    rcases hs.post.armed hne with hp | ⟨t, ht⟩ | hl
    · have hnone := hstuck .postFire trivial
      simp [dispatcherStep, hready, hloop, SchedulableCallback.fire, hp] at hnone
    · simp [hcaller t] at ht
    · simp [aboutToTake, hloop] at hl
  have hvec : s.vec s.currentFirst = [] := by
    by_contra hne
    rcases hs.deferred.armed hne with hp | hl
    · have hnone := hstuck .deferredFire trivial
      simp [dispatcherStep, hready, hloop, SchedulableCallback.fire, hp] at hnone
    · simp [hloop] at hl
  have hdeletables : s.deletables = [] := by
    by_contra hne
    rcases hs.deletableArmed hne with hp | ⟨t, ht⟩ | hl | hd
    · have hnone := hstuck .threadLocalFire trivial
      simp [dispatcherStep, hready, hloop, SchedulableCallback.fire, hp] at hnone
    · simp [hcaller t] at ht
    · simp [hloop] at hl
    · simp [hs.beforeShutdown] at hd
  refine ⟨⟨hloop, hpass, hcaller⟩, ?_, ?_, ?_⟩
  · simpa [batch, hloop, hpost] using hs.post.fifo.symm
  · have hfifo := hs.deferred.fifo
    rw [(hs.deferred.outside hpass).2, hvec] at hfifo
    simpa [List.reduceOption] using hfifo.symm
  · simpa [DeletableInv, localDeletables, hloop, hdeletables] using hs.deletables.symm

end Dispatcher

/-- **The dispatcher comes to rest.** In whatever state an interleaving has left it before
`shutdown`, the steps of what is under way are finitely many, in any order; when none is left, every
callback posted has been executed, every object handed over has been destroyed and so has every
deletable. -/
theorem dispatcher_rests [DecidableEq ι] [Fintype ι] {s : Dispatcher ι}
    (hs : Reachable dispatcherStep {} s) (hshutdown : s.shutdownPhase = false) :
    Settles dispatcherStep Action.Continues Rests s.work s := by
  exact settles_of_measure (P := Action.Continues) (fun _ _ _ hs ha h ↦ hs.step ha h)
    (fun _ _ _ hs ha h ↦ work_lt hs.deferred ha h) (fun _ hs hstuck ↦ rests_of_stuck hs hstuck)
    (armed_of_reachable hs hshutdown)

/-- A poster that has not scheduled yet, and a deferred deletion whose destructor hands over another
object. -/
def underWay : List (Action Bool) :=
  [.deferredDelete (some 0), .postAppend (some true) 7, .deferredFire, .deferredClear, .passReset,
    .deferredDelete (some 1)]

/-- The poster schedules, the callback is executed and the second object destroyed, in at most as
many steps as there is work. -/
theorem dispatcher_rests_underWay : ∃ s, Machine.run dispatcherStep underWay {} = some s ∧
    s.executed = [] ∧ s.destroyed = [0] ∧ Settles dispatcherStep Action.Continues Rests s.work s :=
  ⟨_, rfl, rfl, rfl, dispatcher_rests ⟨underWay, rfl⟩ rfl⟩

end TcpServer.Event
