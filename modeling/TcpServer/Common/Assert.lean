import TcpServer.Lib.Chain
import TcpServer.Lib.Machine
import Mathlib.Data.Nat.Size

/-!
# Recorded assertion failures

`ActionRegistrationImpl` and `EnvoyBugRegistrationImpl` install an action for the time they live.
Each kind has a static pointer to the first registration of a chain and puts itself in front of it;
the destructor puts back the next one, after an `ASSERT` that it is the first. The actions are
invoked along the chain. A registration stands for its action as well.

What a failure does is decided by the preprocessor (`Configuration`). A failed `ASSERT` aborts in a
debug build; in a release build it is either compiled out or invokes the actions of its kind and
goes on, and so does the `ASSERT` in the destructors. A failed `ENVOY_BUG` is counted by its name,
and only where the count is a power of two does anything follow: an abort in a debug build that is
not for coverage, and the actions otherwise. The counters start again whenever an
`EnvoyBugRegistrationImpl` is made.

The results are about whole runs of registrations, destructions and failures.

* `invokes_live`: as long as registrations go in the opposite order of their coming, the actions
  that a run has invoked are read off its events alone (`invocations`). Every failure that is
  recorded has invoked the actions of the registrations that lived then, each once and the newest
  first. A debug build enforces that order; in a release build one destructor out of order is enough
  for the next failure to invoke something else.
* `envoyBug_backs_off`: of the failures of one `ENVOY_BUG`, as many are recorded as their number has
  binary digits.

The first rests on the chain of saved pointers (`Linked` of the library) as an invariant, `Chained`;
the second on a count of the powers of two up to a number, `size_succ`.
-/

namespace TcpServer.Assert

open Machine Chain

variable {β : Type*}

/-! ### What a failure does

The macros are defined for the whole program, so a configuration is fixed over a run. What a failed
`ASSERT` does and what a failed `ENVOY_BUG` does follow from the same macros, which is why the two
are not parameters of their own.
-/

/-- The macros of the preprocessor that decide what a failure does. -/
structure Configuration where
  /-- `NDEBUG`: a release build. -/
  ndebug : Bool
  /-- `ENVOY_LOG_DEBUG_ASSERT_IN_RELEASE`. -/
  logDebugAssertInRelease : Bool
  /-- `ENVOY_LOG_FAST_DEBUG_ASSERT_IN_RELEASE`. -/
  logFastDebugAssertInRelease : Bool
  /-- `ENVOY_CONFIG_COVERAGE`. -/
  configCoverage : Bool
deriving DecidableEq

/-- What stands for the action of a macro. -/
inductive FailureAction
  | compiledOut
  | abort
  | invoke
deriving DecidableEq

namespace Configuration

/-- `ASSERT`, with its `ASSERT_ACTION`. -/
def assertAction (config : Configuration) : FailureAction :=
  if config.ndebug = false then .abort
  else if config.logDebugAssertInRelease || config.logFastDebugAssertInRelease then .invoke
  else .compiledOut

/-- `ENVOY_BUG_ACTION`. -/
def envoyBugAction (config : Configuration) : FailureAction :=
  if config.ndebug = false ∧ config.configCoverage = false then .abort else .invoke

/-- `ENVOY_BUG` is in every build. -/
theorem envoyBugAction_ne_compiledOut (config : Configuration) :
    config.envoyBugAction ≠ .compiledOut := by
  rw [envoyBugAction]
  split_ifs <;> exact FailureAction.noConfusion

end Configuration

/-! ### Registrations

A registration is on the chain from its construction to its destruction. What the source keeps is
one pointer to the first registration and, in each registration, the pointer that it has found; a
registration destroyed out of order leaves a pointer to itself behind.
-/

/-- A chain of registrations, with how many have been made so far: no chain is longer. -/
structure Registrations where
  /-- The static pointer, and the `next_action_` of each registration that lives. -/
  links : Links ℕ := {}
  /-- How many registrations have been made. -/
  made : ℕ := 0

namespace Registrations

/-- The constructor of a registration. -/
def construct (r : ℕ) (s : Registrations) : Option Registrations :=
  (s.links.link r).map fun l ↦ { links := l, made := s.made + 1 }

/-- The destructor of a registration, after its `ASSERT`. -/
def destruct (r : ℕ) (s : Registrations) : Option Registrations :=
  (s.links.unlink r).map fun l ↦ { s with links := l }

/-- `invokeAction`: the actions invoked, in order, and `none` if the chain leads to a registration
that is destroyed. -/
def invokeAction (s : Registrations) : Option (List ℕ) := s.links.follow s.made s.links.head

/-- The chain leads through the registrations that live. -/
structure Holds (s : Registrations) (live : List ℕ) : Prop where
  /-- The pointers lead from one to the next. -/
  linked : Linked s.links live
  /-- There are no more than have been made. -/
  length_le : live.length ≤ s.made

/-- The actions that are invoked are those of the chain. -/
theorem Holds.invokeAction {s : Registrations} {live : List ℕ} (h : s.Holds live) :
    s.invokeAction = some live :=
  h.linked.follow h.length_le

/-- A new registration is the first of the chain. -/
theorem Holds.construct {s s' : Registrations} {live : List ℕ} {r : ℕ} (h : s.Holds live)
    (hs : s.construct r = some s') : s'.Holds (r :: live) := by
  obtain ⟨l, hl, rfl⟩ := Option.map_eq_some_iff.1 hs
  exact ⟨h.linked.link hl, Nat.succ_le_succ h.length_le⟩

/-- The chain is whole where the newest registration has gone. -/
theorem Holds.destruct {s s' : Registrations} {live : List ℕ} {r : ℕ} (h : s.Holds live)
    (hs : s.destruct r = some s') (hnewest : s.links.head = some r) : s'.Holds (live.erase r) := by
  obtain ⟨l, hl, rfl⟩ := Option.map_eq_some_iff.1 hs
  exact ⟨h.linked.unlink_head hl hnewest, Nat.le_trans List.length_erase_le h.length_le⟩

/-- What is invoked after a destructor that nothing stops. -/
theorem Holds.invokeAction_destruct_iff {s s' : Registrations} {live : List ℕ} {r : ℕ}
    (h : s.Holds live) (hs : s.destruct r = some s') :
    s'.invokeAction = some (live.erase r) ↔ live.head? = some r := by
  obtain ⟨l, hl, rfl⟩ := Option.map_eq_some_iff.1 hs
  rw [← h.linked.head_eq]
  exact h.linked.follow_unlink_iff hl h.length_le

end Registrations

/-- Whether `ENVOY_BUG` logs and invokes at a count. -/
def isPowerOfTwo (counter : UInt64) : Bool := counter &&& (counter - 1) == 0

/-- The statics of `Assert.cpp`. -/
structure Recorder (β : Type*) where
  /-- `debug_assertion_failure_record_action_`, and its chain. -/
  debugAssertionFailure : Registrations := {}
  /-- `envoy_bug_failure_record_action_`, and its chain. -/
  envoyBugFailure : Registrations := {}
  /-- The counters of `EnvoyBugState`. -/
  counters : β → UInt64 := fun _ ↦ 0
  /-- History: the failures whose actions were invoked, an `ENVOY_BUG` with its name, and the
  actions. -/
  invoked : List (Option β × Option (List ℕ)) := []

/-- A registration comes or goes, a condition is false, or a test starts. -/
inductive Event (β : Type*)
  | addDebugAssertionFailureRecordAction (r : ℕ)
  | removeDebugAssertionFailureRecordAction (r : ℕ)
  | assertionFailure
  | addEnvoyBugFailureRecordAction (r : ℕ)
  | removeEnvoyBugFailureRecordAction (r : ℕ)
  | envoyBugFailure (bugName : β)
  | resetEnvoyBugCounters
deriving DecidableEq

namespace Recorder

/-- `EnvoyBugRegistrationImpl::shouldLogAndInvoke`: the counter is incremented first. -/
def shouldLogAndInvoke [DecidableEq β] (bugName : β) (s : Recorder β) : Bool × Recorder β :=
  let counterValue := s.counters bugName + 1
  (isPowerOfTwo counterValue,
    { s with counters := Function.update s.counters bugName counterValue })

/-- `ASSERT`, of a condition that may be false. -/
def assert (config : Configuration) (condition : Bool) (s : Recorder β) : Option (Recorder β) :=
  if condition then some s
  else
    match config.assertAction with
    | .compiledOut => some s
    | .abort => none
    | .invoke =>
      some { s with invoked := s.invoked ++ [(none, s.debugAssertionFailure.invokeAction)] }

/-- `ENVOY_BUG`, of a condition that is false. -/
def envoyBug [DecidableEq β] (config : Configuration) (bugName : β) (s : Recorder β) :
    Option (Recorder β) :=
  let (should, s) := s.shouldLogAndInvoke bugName
  if should then
    match config.envoyBugAction with
    | .compiledOut => some s
    | .abort => none
    | .invoke =>
      some { s with invoked := s.invoked ++ [(some bugName, s.envoyBugFailure.invokeAction)] }
  else some s

end Recorder

/-- A build that aborts goes on only where the condition is true. -/
theorem of_assert_abort {config : Configuration} {condition : Bool} {s s' : Recorder β}
    (habort : config.assertAction = .abort) (h : s.assert config condition = some s') :
    condition = true := by
  match condition with
  | true => rfl
  | false =>
    rw [Recorder.assert, habort] at h
    cases h

/-- What an `ASSERT` does that does not abort: it touches nothing but the history. -/
theorem eq_of_assert {config : Configuration} {condition : Bool} {s s' : Recorder β}
    (h : s.assert config condition = some s') :
    s' = { s with invoked := s.invoked ++
      if condition = false ∧ config.assertAction = .invoke then
        [(none, s.debugAssertionFailure.invokeAction)]
      else [] } := by
  match condition, hconfig : config.assertAction with
  | true, _ =>
    rw [if_neg fun hfalse ↦ Bool.false_ne_true hfalse.1.symm, List.append_nil]
    exact (Option.some.inj h).symm
  | false, .compiledOut =>
    rw [Recorder.assert, hconfig] at h
    rw [if_neg fun hinvoke ↦ FailureAction.noConfusion hinvoke.2, List.append_nil]
    exact (Option.some.inj h).symm
  | false, .abort =>
    rw [Recorder.assert, hconfig] at h
    cases h
  | false, .invoke =>
    rw [Recorder.assert, hconfig] at h
    rw [if_pos ⟨rfl, rfl⟩]
    exact (Option.some.inj h).symm

/-- What an `ENVOY_BUG` does that does not abort: it counts, and invokes at the powers of two. -/
theorem eq_of_envoyBug [DecidableEq β] {config : Configuration} {bugName : β} {s s' : Recorder β}
    (h : s.envoyBug config bugName = some s') :
    (isPowerOfTwo (s.counters bugName + 1) = true → config.envoyBugAction = .invoke) ∧
      s' = { s with
        counters := Function.update s.counters bugName (s.counters bugName + 1)
        invoked := s.invoked ++
          if isPowerOfTwo (s.counters bugName + 1) then
            [(some bugName, s.envoyBugFailure.invokeAction)]
          else [] } := by
  rw [Recorder.envoyBug, Recorder.shouldLogAndInvoke] at h
  dsimp only at h
  split_ifs at h with hshould
  · rw [if_pos hshould]
    match hconfig : config.envoyBugAction with
    | .compiledOut => exact absurd hconfig config.envoyBugAction_ne_compiledOut
    | .abort =>
      rw [hconfig] at h
      cases h
    | .invoke =>
      rw [hconfig] at h
      exact ⟨fun _ ↦ rfl, (Option.some.inj h).symm⟩
  · rw [if_neg hshould, List.append_nil]
    exact ⟨fun hpow ↦ absurd hpow hshould, (Option.some.inj h).symm⟩

/-- One event. There is no successor where the process aborts. -/
def step [DecidableEq β] (config : Configuration) : Event β → Recorder β → Option (Recorder β)
  | .addDebugAssertionFailureRecordAction r, s =>
    (s.debugAssertionFailure.construct r).map fun d ↦ { s with debugAssertionFailure := d }
  | .removeDebugAssertionFailureRecordAction r, s =>
    (s.assert config (s.debugAssertionFailure.links.head = some r)).bind fun s ↦
      (s.debugAssertionFailure.destruct r).map fun d ↦ { s with debugAssertionFailure := d }
  | .assertionFailure, s => s.assert config false
  | .addEnvoyBugFailureRecordAction r, s =>
    (s.envoyBugFailure.construct r).map fun b ↦
      { s with envoyBugFailure := b, counters := fun _ ↦ 0 }
  | .removeEnvoyBugFailureRecordAction r, s =>
    (s.assert config (s.envoyBugFailure.links.head = some r)).bind fun s ↦
      (s.envoyBugFailure.destruct r).map fun b ↦ { s with envoyBugFailure := b }
  | .envoyBugFailure bugName, s => s.envoyBug config bugName
  | .resetEnvoyBugCounters, s => some { s with counters := fun _ ↦ 0 }

/-- An `ASSERT` whose condition holds does nothing. -/
theorem eq_of_assert_true {config : Configuration} {condition : Bool} {s s' : Recorder β}
    (hcondition : condition = true) (h : s.assert config condition = some s') : s = s' := by
  rw [hcondition] at h
  exact Option.some.inj h

/-! ### What the events say

The registrations that live and the number of failures of one `ENVOY_BUG` are read off the list of
events, without the state. So are the invocations that a run is to have made.
-/

/-- The counters start again. -/
def Event.clears : Event β → Bool
  | .addEnvoyBugFailureRecordAction _ | .resetEnvoyBugCounters => true
  | _ => false

/-- The registrations for `ASSERT` that live after some events, the newest first. -/
def liveDebug : List (Event β) → List ℕ :=
  List.foldl (fun live e ↦ match e with
    | .addDebugAssertionFailureRecordAction r => r :: live
    | .removeDebugAssertionFailureRecordAction r => live.erase r
    | _ => live) []

/-- The registrations for `ENVOY_BUG` that live after some events, the newest first. -/
def liveEnvoyBug : List (Event β) → List ℕ :=
  List.foldl (fun live e ↦ match e with
    | .addEnvoyBugFailureRecordAction r => r :: live
    | .removeEnvoyBugFailureRecordAction r => live.erase r
    | _ => live) []

/-- The last event adds a registration in front, takes one away, or concerns something else. -/
theorem liveDebug_concat (as : List (Event β)) (a : Event β) :
    liveDebug (as ++ [a]) = match a with
      | .addDebugAssertionFailureRecordAction r => r :: liveDebug as
      | .removeDebugAssertionFailureRecordAction r => (liveDebug as).erase r
      | _ => liveDebug as := by
  rw [liveDebug, List.foldl_concat]

/-- The same for the actions of `ENVOY_BUG`. -/
theorem liveEnvoyBug_concat (as : List (Event β)) (a : Event β) :
    liveEnvoyBug (as ++ [a]) = match a with
      | .addEnvoyBugFailureRecordAction r => r :: liveEnvoyBug as
      | .removeEnvoyBugFailureRecordAction r => (liveEnvoyBug as).erase r
      | _ => liveEnvoyBug as := by
  rw [liveEnvoyBug, List.foldl_concat]

/-- A registration that goes is the newest of its kind. -/
def Newest : Event β → Recorder β → Prop
  | .removeDebugAssertionFailureRecordAction r, s => s.debugAssertionFailure.links.head = some r
  | .removeEnvoyBugFailureRecordAction r, s => s.envoyBugFailure.links.head = some r
  | _, _ => True

variable [DecidableEq β]

/-- How often an `ENVOY_BUG` has failed since the counters last started again. -/
def hits (bugName : β) : List (Event β) → ℕ :=
  List.foldl (fun n e ↦ if e.clears then 0 else if e = .envoyBugFailure bugName then n + 1 else n) 0

/-- What an event invokes after others: for a failure that is recorded, the actions that live. -/
def invokedBy (config : Configuration) (before : List (Event β)) :
    Event β → Option (Option β × List ℕ)
  | .assertionFailure =>
    if config.assertAction = .invoke then some (none, liveDebug before) else none
  | .envoyBugFailure bugName =>
    if config.envoyBugAction = .invoke ∧ isPowerOfTwo (.ofNat (hits bugName before + 1)) then
      some (some bugName, liveEnvoyBug before)
    else none
  | _ => none

/-- What some events invoke after others, one after the other. -/
def invocationsFrom (config : Configuration) (before : List (Event β)) :
    List (Event β) → List (Option β × List ℕ)
  | [] => []
  | a :: as => (invokedBy config before a).toList ++ invocationsFrom config (before ++ [a]) as

/-- What some events invoke, from the start. -/
def invocations (config : Configuration) (as : List (Event β)) : List (Option β × List ℕ) :=
  invocationsFrom config [] as

/-- The last event clears the counters, is counted, or is neither. -/
theorem hits_concat (bugName : β) (as : List (Event β)) (a : Event β) :
    hits bugName (as ++ [a]) =
      if a.clears then 0 else if a = .envoyBugFailure bugName then hits bugName as + 1
      else hits bugName as := by
  rw [hits, List.foldl_concat]

/-- The last event adds its invocation to those before. -/
theorem invocationsFrom_concat (config : Configuration) (before as : List (Event β)) (a : Event β) :
    invocationsFrom config before (as ++ [a]) =
      invocationsFrom config before as ++ (invokedBy config (before ++ as) a).toList := by
  induction as generalizing before with
  | nil =>
    rw [List.append_nil]
    exact List.append_nil _
  | cons b as ih =>
    rw [List.cons_append, invocationsFrom, ih, invocationsFrom, List.append_assoc,
      List.append_assoc]
    rfl

/-- One event more adds what it invokes after the others. -/
theorem invocations_concat (config : Configuration) (as : List (Event β)) (a : Event β) :
    invocations config (as ++ [a]) = invocations config as ++ (invokedBy config as a).toList :=
  invocationsFrom_concat config [] as a

/-- In a debug build only the newest goes: everything else aborts. -/
theorem newest_of_abort {config : Configuration} (habort : config.assertAction = .abort)
    {a : Event β}
    {s s' : Recorder β} (h : step config a s = some s') : Newest a s := by
  cases a with
  | removeDebugAssertionFailureRecordAction r =>
    obtain ⟨t, ht, -⟩ := Option.bind_eq_some_iff.1 h
    have hhead : s.debugAssertionFailure.links.head = some r :=
      of_decide_eq_true (of_assert_abort habort ht)
    exact hhead
  | removeEnvoyBugFailureRecordAction r =>
    obtain ⟨t, ht, -⟩ := Option.bind_eq_some_iff.1 h
    have hhead : s.envoyBugFailure.links.head = some r :=
      of_decide_eq_true (of_assert_abort habort ht)
    exact hhead
  | _ => trivial

/-! ### The actions

The invariant of a run ties the state to the events: step by step, what is alive, what is counted
and what has been invoked. It is kept as long as each destruction meets its own registration at the
front.
-/

/-- What the events say of the state: both chains lead through what is alive, the counters count,
and the history is what the events invoke. -/
structure Chained (config : Configuration) (as : List (Event β)) (s : Recorder β) : Prop where
  /-- The chain of the registrations for `ASSERT`. -/
  debug : s.debugAssertionFailure.Holds (liveDebug as)
  /-- The chain of the registrations for `ENVOY_BUG`. -/
  envoyBug : s.envoyBugFailure.Holds (liveEnvoyBug as)
  /-- The counters, which are of 64 bits. -/
  counters : ∀ bugName, s.counters bugName = .ofNat (hits bugName as)
  /-- What has been invoked, never over a registration that is gone. -/
  invoked : s.invoked = (invocations config as).map fun entry ↦ (entry.1, some entry.2)

namespace Chained

variable {config : Configuration} {as : List (Event β)} {s s' : Recorder β}

/-- The counter is the number of failures also after the next one, modulo the size of the counter.
-/
theorem ofNat_hits_succ (hs : Chained config as s) (bugName : β) :
    s.counters bugName + 1 = .ofNat (hits bugName as + 1) := by
  rw [hs.counters, UInt64.ofNat_add]
  rfl

/-- An event that neither clears nor counts, and invokes what it should. -/
theorem of_quiet {a : Event β} (hs : Chained config as s)
    (hdebug : s'.debugAssertionFailure.Holds (liveDebug (as ++ [a])))
    (henvoyBug : s'.envoyBugFailure.Holds (liveEnvoyBug (as ++ [a])))
    (hclears : a.clears = false) (hne : ∀ bugName, a ≠ .envoyBugFailure bugName)
    (hcounters : s'.counters = s.counters)
    (hinvoked : s'.invoked =
      s.invoked ++ (invokedBy config as a).toList.map fun entry ↦ (entry.1, some entry.2)) :
    Chained config (as ++ [a]) s' where
  debug := hdebug
  envoyBug := henvoyBug
  counters bugName := by
    rw [hits_concat, if_neg (Bool.eq_false_iff.1 hclears), if_neg (hne bugName), hcounters,
      hs.counters]
  invoked := by rw [hinvoked, invocations_concat, List.map_append, hs.invoked]

/-- An event that clears the counters and invokes nothing. -/
theorem of_clearing {a : Event β} (hs : Chained config as s)
    (hdebug : s'.debugAssertionFailure.Holds (liveDebug (as ++ [a])))
    (henvoyBug : s'.envoyBugFailure.Holds (liveEnvoyBug (as ++ [a])))
    (hclears : a.clears = true) (hcounters : ∀ bugName, s'.counters bugName = 0)
    (hinvokedBy : invokedBy config as a = none) (hinvoked : s'.invoked = s.invoked) :
    Chained config (as ++ [a]) s' where
  debug := hdebug
  envoyBug := henvoyBug
  counters bugName := by
    rw [hits_concat, if_pos hclears, hcounters]
    rfl
  invoked := by
    rw [hinvoked, hs.invoked, invocations_concat, hinvokedBy, Option.toList_none, List.append_nil]

/-- A step keeps the invariant, provided that a destructor is that of the newest registration. -/
theorem step {a : Event β} (hs : Chained config as s) (hnewest : Newest a s)
    (h : step config a s = some s') : Chained config (as ++ [a]) s' := by
  cases a with
  | addDebugAssertionFailureRecordAction r =>
    obtain ⟨d, hd, rfl⟩ := Option.map_eq_some_iff.1 h
    refine hs.of_quiet ?_ ?_ rfl (fun _ h ↦ nomatch h) rfl (List.append_nil _).symm
    · rw [liveDebug_concat]
      exact hs.debug.construct hd
    · rw [liveEnvoyBug_concat]
      exact hs.envoyBug
  | removeDebugAssertionFailureRecordAction r =>
    obtain ⟨t, ht, h⟩ := Option.bind_eq_some_iff.1 h
    have hhead : s.debugAssertionFailure.links.head = some r := hnewest
    obtain rfl := eq_of_assert_true (decide_eq_true hhead) ht
    obtain ⟨d, hd, rfl⟩ := Option.map_eq_some_iff.1 h
    refine hs.of_quiet ?_ ?_ rfl (fun _ h ↦ nomatch h) rfl (List.append_nil _).symm
    · rw [liveDebug_concat]
      exact hs.debug.destruct hd hnewest
    · rw [liveEnvoyBug_concat]
      exact hs.envoyBug
  | assertionFailure =>
    obtain rfl := eq_of_assert h
    refine hs.of_quiet ?_ ?_ rfl (fun _ h ↦ nomatch h) rfl (congrArg (s.invoked ++ ·) ?_)
    · rw [liveDebug_concat]
      exact hs.debug
    · rw [liveEnvoyBug_concat]
      exact hs.envoyBug
    · rw [hs.debug.invokeAction, invokedBy]
      by_cases hinvoke : config.assertAction = .invoke
      · rw [if_pos ⟨rfl, hinvoke⟩, if_pos hinvoke]
        rfl
      · rw [if_neg fun h ↦ hinvoke h.2, if_neg hinvoke]
        rfl
  | addEnvoyBugFailureRecordAction r =>
    obtain ⟨b, hb, rfl⟩ := Option.map_eq_some_iff.1 h
    refine hs.of_clearing ?_ ?_ rfl (fun _ ↦ rfl) rfl rfl
    · rw [liveDebug_concat]
      exact hs.debug
    · rw [liveEnvoyBug_concat]
      exact hs.envoyBug.construct hb
  | removeEnvoyBugFailureRecordAction r =>
    obtain ⟨t, ht, h⟩ := Option.bind_eq_some_iff.1 h
    have hhead : s.envoyBugFailure.links.head = some r := hnewest
    obtain rfl := eq_of_assert_true (decide_eq_true hhead) ht
    obtain ⟨b, hb, rfl⟩ := Option.map_eq_some_iff.1 h
    refine hs.of_quiet ?_ ?_ rfl (fun _ h ↦ nomatch h) rfl (List.append_nil _).symm
    · rw [liveDebug_concat]
      exact hs.debug
    · rw [liveEnvoyBug_concat]
      exact hs.envoyBug.destruct hb hnewest
  | envoyBugFailure bugName =>
    obtain ⟨hinvoke, rfl⟩ := eq_of_envoyBug h
    constructor
    · rw [liveDebug_concat]
      exact hs.debug
    · rw [liveEnvoyBug_concat]
      exact hs.envoyBug
    · intro other
      rw [hits_concat]
      show Function.update s.counters bugName _ other =
        .ofNat (if Event.envoyBugFailure bugName = .envoyBugFailure other then _ else _)
      obtain rfl | hne := eq_or_ne other bugName
      · rw [Function.update_self, if_pos rfl, hs.ofNat_hits_succ]
      · rw [Function.update_of_ne hne, if_neg fun heq ↦ hne (Event.envoyBugFailure.inj heq).symm,
          hs.counters]
    · rw [hs.ofNat_hits_succ] at hinvoke
      rw [invocations_concat, List.map_append, ← hs.invoked, hs.envoyBug.invokeAction,
        hs.ofNat_hits_succ, invokedBy]
      refine congrArg (s.invoked ++ ·) ?_
      by_cases hpow : isPowerOfTwo (.ofNat (hits bugName as + 1)) = true
      · rw [if_pos hpow, if_pos ⟨hinvoke hpow, hpow⟩]
        rfl
      · rw [if_neg hpow, if_neg fun h ↦ hpow h.2]
        rfl
  | resetEnvoyBugCounters =>
    obtain rfl := Option.some.inj h
    refine hs.of_clearing ?_ ?_ rfl (fun _ ↦ rfl) rfl rfl
    · rw [liveDebug_concat]
      exact hs.debug
    · rw [liveEnvoyBug_concat]
      exact hs.envoyBug

end Chained

/-- The invariant holds after every run in which the destructors come in order. A debug build stops
the others itself. -/
theorem chained_of_run {config : Configuration} {as : List (Event β)} {s : Recorder β}
    (hrun : run (Assert.step config) as {} = some s)
    (hnewest : config.assertAction = .abort ∨ Meets (Assert.step config) Newest as {}) :
    Chained config as s := by
  have hmeets : Meets (Assert.step config) Newest as {} := by
    rcases hnewest with habort | hmeets
    · exact meets_of_run (fun _ _ _ ↦ newest_of_abort habort) hrun
    · exact hmeets
  have hinit : Chained config [] ({} : Recorder β) :=
    ⟨⟨Linked.empty, Nat.le_refl 0⟩, ⟨Linked.empty, Nat.le_refl 0⟩, fun _ ↦ rfl, rfl⟩
  exact run_induction_of_meets hinit (fun _ _ _ _ ↦ Chained.step) hrun hmeets

/-- **A failure invokes the actions that live.** In every run whose registrations go in the opposite
order of their coming, which is every run of a debug build, the actions invoked are those that the
events say: for every failed `ASSERT` that is recorded, and every failed `ENVOY_BUG` that is
recorded and not backed off, the actions of the registrations of its kind that live, each once and
the newest first, and nothing else. In a release build one destructor out of order is enough for the
next failure to invoke others, or to follow a pointer to a registration that is gone. -/
theorem invokes_live {config : Configuration} {as : List (Event β)} {s : Recorder β}
    (hrun : run (step config) as {} = some s)
    (hnewest : config.assertAction = .abort ∨ Meets (step config) Newest as {}) :
    s.invoked = (invocations config as).map (fun entry ↦ (entry.1, some entry.2)) ∧
      (∀ r s₁ s₂, config.assertAction = .invoke →
        step config (.removeDebugAssertionFailureRecordAction r) s = some s₁ →
        step config .assertionFailure s₁ = some s₂ →
        (s₂.invoked = s₁.invoked ++ [(none, some ((liveDebug as).erase r))] ↔
          (liveDebug as).head? = some r)) ∧
      ∀ r bugName s₁ s₂, config.assertAction ≠ .abort →
        isPowerOfTwo (.ofNat (hits bugName as + 1)) = true →
        step config (.removeEnvoyBugFailureRecordAction r) s = some s₁ →
        step config (.envoyBugFailure bugName) s₁ = some s₂ →
        (s₂.invoked = s₁.invoked ++ [(some bugName, some ((liveEnvoyBug as).erase r))] ↔
          (liveEnvoyBug as).head? = some r) := by
  have hchained := chained_of_run hrun hnewest
  refine ⟨hchained.invoked, fun r s₁ s₂ hinvoke h₁ h₂ ↦ ?_,
    fun r bugName s₁ s₂ hrelease hpow h₁ h₂ ↦ ?_⟩
  · obtain ⟨t, ht, h₁⟩ := Option.bind_eq_some_iff.1 h₁
    obtain rfl := eq_of_assert ht
    obtain ⟨d, hd, rfl⟩ := Option.map_eq_some_iff.1 h₁
    obtain rfl := eq_of_assert h₂
    have hrecorded : false = false ∧ config.assertAction = .invoke := ⟨rfl, hinvoke⟩
    rw [if_pos hrecorded]
    simp only [List.append_cancel_left_eq, List.cons.injEq, Prod.mk.injEq, true_and, and_true]
    exact hchained.debug.invokeAction_destruct_iff hd
  · obtain ⟨t, ht, h₁⟩ := Option.bind_eq_some_iff.1 h₁
    obtain rfl := eq_of_assert ht
    obtain ⟨b, hb, rfl⟩ := Option.map_eq_some_iff.1 h₁
    obtain ⟨-, rfl⟩ := eq_of_envoyBug h₂
    rw [← hchained.ofNat_hits_succ] at hpow
    rw [if_pos hpow]
    simp only [List.append_cancel_left_eq, List.cons.injEq, Prod.mk.injEq, true_and, and_true]
    exact hchained.envoyBug.invokeAction_destruct_iff hb

/-- A debug build for coverage. -/
def coverage : Configuration where
  ndebug := false
  logDebugAssertInRelease := false
  logFastDebugAssertInRelease := false
  configCoverage := true

/-- Three registrations, of which the newest goes, and one of the other kind; then one `ENVOY_BUG`
fails three times. -/
def registered : List (Event Bool) :=
  [.addEnvoyBugFailureRecordAction 0, .addEnvoyBugFailureRecordAction 1,
    .addEnvoyBugFailureRecordAction 2, .removeEnvoyBugFailureRecordAction 2,
    .addDebugAssertionFailureRecordAction 3, .envoyBugFailure true, .envoyBugFailure true,
    .envoyBugFailure true]

/-- Two failures of one `ENVOY_BUG` under two registrations: both are recorded, and each invokes
both actions, the newer first. -/
theorem invokes_live_registered : ∃ s, run (step coverage) registered {} = some s ∧
    s.invoked = [(some true, some [1, 0]), (some true, some [1, 0])] := by
  have hrun : run (step coverage) registered {} = some _ := rfl
  exact ⟨_, hrun, (invokes_live hrun (.inl rfl)).1.trans (by decide)⟩

/-! ### The back-off

The first failure of a bug is logged, then the second, the fourth, the eighth. Whether a count is a
power of two is computed with bits, and how many powers there are up to a number is its size in
binary.
-/

/-- The test on the bits is right for counts that are not zero. -/
theorem isPowerOfTwo_iff {c : UInt64} (hc : c ≠ 0) :
    isPowerOfTwo c = true ↔ c.toNat.isPowerOfTwo := by
  have hpos : c.toNat ≠ 0 := fun h ↦ hc (UInt64.toNat_inj.1 h)
  have hsub : (c - 1).toNat = c.toNat - 1 :=
    UInt64.toNat_sub_of_le c 1 (UInt64.le_iff_toNat_le.2 (Nat.one_le_iff_ne_zero.2 hpos))
  rw [isPowerOfTwo, beq_iff_eq, ← UInt64.toNat_inj, UInt64.toNat_and, hsub]
  exact Nat.and_sub_one_eq_zero_iff_isPowerOfTwo hpos

/-- The powers of two up to a number are as many as it has binary digits. -/
theorem size_succ (n : ℕ) [Decidable (n + 1).isPowerOfTwo] :
    Nat.size (n + 1) = Nat.size n + if (n + 1).isPowerOfTwo then 1 else 0 := by
  have hle : Nat.size n ≤ Nat.size (n + 1) := Nat.size_le_size (Nat.le_succ n)
  split_ifs with hpow
  · obtain ⟨k, hk⟩ := hpow
    have hn : Nat.size n ≤ k := Nat.size_le.2 (by omega)
    have hk' : k ≤ Nat.size n := by
      match k, hk with
      | 0, _ => exact Nat.zero_le _
      | j + 1, hk =>
        have hpos : 0 < 2 ^ j := Nat.two_pow_pos j
        rw [Nat.pow_succ] at hk
        exact Nat.lt_size.2 (by omega)
    rw [hk, Nat.size_pow]
    omega
  · refine Nat.le_antisymm (Nat.size_le.2 ?_) hle
    rcases Nat.lt_or_eq_of_le (Nat.succ_le_of_lt (Nat.lt_size_self n)) with hlt | heq
    · exact hlt
    · exact absurd ⟨_, heq⟩ hpow

/-- How often the actions have been invoked for an `ENVOY_BUG`. -/
def Recorder.logged (bugName : β) (s : Recorder β) : ℕ :=
  s.invoked.countP fun entry ↦ entry.1 = some bugName

/-- The failures of an `ENVOY_BUG` are counted, and the powers of two among the counts are
logged. -/
def BacksOff (before : ℕ) (bugName : β) (as : List (Event β)) (s : Recorder β) : Prop :=
  (∀ a ∈ as, a.clears = false) → as.count (.envoyBugFailure bugName) < UInt64.size →
    (s.counters bugName).toNat = as.count (.envoyBugFailure bugName) ∧
      s.logged bugName = before + Nat.size (as.count (.envoyBugFailure bugName))

/-- A failure of the `ENVOY_BUG` itself. -/
theorem backsOff_envoyBugFailure {before n : ℕ} {bugName : β} {s : Recorder β}
    (hcounter : (s.counters bugName).toNat = n) (hlogged : s.logged bugName = before + Nat.size n)
    (hn : n + 1 < UInt64.size) {config : Configuration} {s' : Recorder β}
    (h : step config (.envoyBugFailure bugName) s = some s') :
    (s'.counters bugName).toNat = n + 1 ∧ s'.logged bugName = before + Nat.size (n + 1) := by
  have hsucc : (s.counters bugName + 1).toNat = n + 1 := by
    rw [UInt64.toNat_add, hcounter]
    exact Nat.mod_eq_of_lt hn
  have hne : s.counters bugName + 1 ≠ 0 := fun hzero ↦ by simp [hzero] at hsucc
  have hpow := isPowerOfTwo_iff hne
  rw [hsucc] at hpow
  classical
  obtain ⟨-, rfl⟩ := eq_of_envoyBug h
  rw [size_succ, ← Nat.add_assoc, ← hlogged]
  by_cases hshould : isPowerOfTwo (s.counters bugName + 1) = true
  · rw [if_pos hshould, if_pos (hpow.1 hshould)]
    exact ⟨by simp [hsucc], by simp [Recorder.logged, List.countP_append]⟩
  · rw [if_neg hshould, if_neg (mt hpow.2 hshould), List.append_nil]
    exact ⟨by simp [hsucc], rfl⟩

/-- An `ASSERT` is not an `ENVOY_BUG`. -/
theorem logged_of_assert {config : Configuration} {condition : Bool} {s s' : Recorder β}
    (bugName : β) (h : s.assert config condition = some s') :
    s'.counters bugName = s.counters bugName ∧ s'.logged bugName = s.logged bugName := by
  obtain rfl := eq_of_assert h
  refine ⟨rfl, ?_⟩
  rw [Recorder.logged, Recorder.logged, List.countP_append]
  split_ifs <;> simp

/-- Every other event. -/
theorem frame_of_ne {config : Configuration} {bugName : β} {a : Event β} {s s' : Recorder β}
    (hclears : a.clears = false) (hne : a ≠ .envoyBugFailure bugName)
    (h : step config a s = some s') :
    s'.counters bugName = s.counters bugName ∧ s'.logged bugName = s.logged bugName := by
  cases a with
  | addDebugAssertionFailureRecordAction r =>
    obtain ⟨d, -, rfl⟩ := Option.map_eq_some_iff.1 h
    exact ⟨rfl, rfl⟩
  | removeDebugAssertionFailureRecordAction r =>
    obtain ⟨t, ht, h⟩ := Option.bind_eq_some_iff.1 h
    obtain ⟨d, -, rfl⟩ := Option.map_eq_some_iff.1 h
    have hframe := logged_of_assert bugName ht
    exact hframe
  | assertionFailure => exact logged_of_assert bugName h
  | addEnvoyBugFailureRecordAction r => cases hclears
  | removeEnvoyBugFailureRecordAction r =>
    obtain ⟨t, ht, h⟩ := Option.bind_eq_some_iff.1 h
    obtain ⟨b, -, rfl⟩ := Option.map_eq_some_iff.1 h
    have hframe := logged_of_assert bugName ht
    exact hframe
  | envoyBugFailure name =>
    have hname : name ≠ bugName := fun heq ↦ hne (heq ▸ rfl)
    obtain ⟨-, rfl⟩ := eq_of_envoyBug h
    refine ⟨Function.update_of_ne hname.symm .., ?_⟩
    rw [Recorder.logged, Recorder.logged, List.countP_append]
    split_ifs <;> simp [hname]
  | resetEnvoyBugCounters => cases hclears

/-- A step keeps what is said about the number of logged failures. -/
theorem BacksOff.step {config : Configuration} {before : ℕ} {bugName : β} {as : List (Event β)}
    {a : Event β}
    {s s' : Recorder β} (hs : BacksOff before bugName as s) (h : step config a s = some s') :
    BacksOff before bugName (as ++ [a]) s' := by
  intro hclears hlt
  rw [List.count_append] at hlt ⊢
  have hbefore := hs (fun b hb ↦ hclears b (List.mem_append_left _ hb)) (by omega)
  have ha : a.clears = false := hclears a (List.mem_append_right _ (List.mem_singleton_self a))
  obtain rfl | hne := eq_or_ne a (.envoyBugFailure bugName)
  · rw [List.count_singleton_self] at hlt ⊢
    exact backsOff_envoyBugFailure hbefore.1 hbefore.2 hlt h
  · obtain ⟨hcounter, hlogged⟩ := frame_of_ne ha hne h
    rw [List.count_singleton, if_neg (by simpa using hne), Nat.add_zero, hcounter, hlogged]
    exact hbefore

/-- **`ENVOY_BUG` backs off exponentially.** Let the counters be empty, as they are on start and
after every `EnvoyBugRegistrationImpl`. Of the next `n` failures of an `ENVOY_BUG`, as many are
logged as `n` has binary digits, whatever fails besides and whichever registrations go. -/
theorem envoyBug_backs_off {config : Configuration} {s s' : Recorder β}
    (hs : s.counters = fun _ ↦ 0)
    {as : List (Event β)} (hrun : run (step config) as s = some s')
    (hclears : ∀ a ∈ as, a.clears = false) (bugName : β)
    (hlt : as.count (.envoyBugFailure bugName) < UInt64.size) :
    s'.logged bugName = s.logged bugName + Nat.size (as.count (.envoyBugFailure bugName)) := by
  have hinit : BacksOff (s.logged bugName) bugName [] s := fun _ _ ↦ ⟨by rw [hs]; rfl, rfl⟩
  exact (run_induction hinit (fun _ _ _ _ _ hbefore h ↦ hbefore.step h) hrun hclears hlt).2

/-- A release build. -/
def release : Configuration where
  ndebug := true
  logDebugAssertInRelease := false
  logFastDebugAssertInRelease := false
  configCoverage := false

/-- Six failures of one `ENVOY_BUG` and one of another. -/
def failures : List (Event Bool) :=
  [.envoyBugFailure true, .envoyBugFailure true, .envoyBugFailure false, .envoyBugFailure true,
    .envoyBugFailure true, .envoyBugFailure true, .envoyBugFailure true]

/-- Six failures of one `ENVOY_BUG`, with one of another between them: the first, the second and the
fourth are logged. -/
theorem envoyBug_backs_off_failures : ∃ s, run (step release) failures {} = some s ∧
    s.logged true = 0 + Nat.size 6 :=
  ⟨_, rfl, envoyBug_backs_off rfl (show run (step release) failures {} = some _ from rfl)
    (by decide) true
    (by decide)⟩

end TcpServer.Assert
