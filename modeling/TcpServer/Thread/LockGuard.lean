import TcpServer.Lib.Machine
import TcpServer.Lib.Threads

/-!
# Lock guards

Threads lock one mutex through guards: objects that lock it when they are constructed, or are asked
to try, and unlock it when they are released or destroyed. The mutex is not recursive: `lock` waits
while anybody holds it, the thread itself included, and `tryLock` then fails. It belongs to the
thread that has locked it: only that thread may unlock it.

Nothing in a guard keeps it with one thread. Each member function here is called by a thread of the
caller's choice, and the model remembers, next to a guard, the thread that last locked through it.

At most one guard is to unlock the mutex, and it is held exactly if one is, by the thread that has
locked it through that guard (`Inv`). Two things end that for good, and nothing else does
(`balanced_iff`):

* a `TryLockGuard` that has locked the mutex is asked to try again. The try fails and overwrites
  `is_locked_`, so the destructor of that guard no longer unlocks, and neither does any other
  (`Leaked`);
* a guard is released or destroyed by another thread than the one that has locked the mutex through
  it, which is an unlock by a thread that does not hold it.
-/

namespace TcpServer.Thread

open Machine

/-- A mutex. What an unlock by a thread that does not hold it does is not defined: it is recorded,
and changes nothing else. -/
structure BasicLockable (τ : Type*) where
  /-- The thread that has locked the mutex. -/
  holder : Option τ := none
  /-- A thread has unlocked the mutex that did not hold it. -/
  misused : Bool := false

namespace BasicLockable

variable {τ : Type*}

/-- The thread gets the mutex, or has to wait. -/
def lock (t : τ) (l : BasicLockable τ) : Option (BasicLockable τ) :=
  match l.holder with
  | none => some { l with holder := some t }
  | some _ => none

/-- The thread gets the mutex if it is free, and says whether it has. -/
def tryLock (t : τ) (l : BasicLockable τ) : BasicLockable τ × Bool :=
  match l.holder with
  | none => ({ l with holder := some t }, true)
  | some _ => (l, false)

/-- The thread gives the mutex back. -/
def unlock [DecidableEq τ] (t : τ) (l : BasicLockable τ) : BasicLockable τ :=
  if l.holder = some t then { l with holder := none } else { l with misused := true }

theorem misused_of_tryLock (t : τ) (l : BasicLockable τ) : (l.tryLock t).1.misused = l.misused := by
  rw [tryLock]
  cases l.holder <;> rfl

theorem misused_of_lock {t : τ} {l l' : BasicLockable τ} (h : l.lock t = some l') :
    l'.misused = l.misused := by
  rw [lock] at h
  split at h
  · rw [← Option.some.inj h]
  · simp at h

theorem misused_of_unlock [DecidableEq τ] (t : τ) {l : BasicLockable τ} (h : l.misused = true) :
    (l.unlock t).misused = true := by
  rw [unlock]
  split_ifs
  · exact h
  · rfl

end BasicLockable

/-- A guard of the mutex. A null `lock` is `false`. -/
inductive Guard
  | optionalLockGuard (lock : Bool)
  | tryLockGuard (isLocked : Bool)
  | lockGuard
  | releasableLockGuard (lock : Bool)
deriving DecidableEq

/-- The guard is to unlock the mutex. -/
def Guard.holds : Guard → Bool
  | .optionalLockGuard lock => lock
  | .tryLockGuard isLocked => isLocked
  | .lockGuard => true
  | .releasableLockGuard lock => lock

section

variable {τ : Type*} [DecidableEq τ]

/-- What the destructor of a guard does to the mutex. -/
def Guard.destruct (t : τ) (l : BasicLockable τ) : Guard → BasicLockable τ
  | .optionalLockGuard lock => if lock then l.unlock t else l
  | .tryLockGuard isLocked => if isLocked then l.unlock t else l
  | .lockGuard => l.unlock t
  | .releasableLockGuard lock => if lock then l.unlock t else l

/-- All four destructors unlock the mutex if the guard is to. -/
theorem Guard.destruct_eq (t : τ) (l : BasicLockable τ) (guard : Guard) :
    guard.destruct t l = if guard.holds then l.unlock t else l := by
  cases guard <;> rfl

end

/-- The mutex and its guards. -/
structure Guarding (ι τ : Type*) where
  /-- The mutex of all the guards. -/
  mutex : BasicLockable τ := {}
  /-- The guards that there are, each with the thread that has last locked the mutex through it, or
  has tried to, or has constructed it. -/
  guards : ι → Option (τ × Guard) := fun _ ↦ none

/-- A call of a member function of a guard, by a thread. The first four construct the guard. -/
inductive GuardAction (ι τ : Type*)
  | optionalLockGuard (guard : ι) (thread : τ) (lock : Bool)
  | tryLockGuard (guard : ι) (thread : τ)
  | lockGuard (guard : ι) (thread : τ)
  | releasableLockGuard (guard : ι) (thread : τ)
  | tryLock (guard : ι) (thread : τ)
  | release (guard : ι) (thread : τ)
  | destruct (guard : ι) (thread : τ)

namespace Guarding

variable {ι τ : Type*} [DecidableEq ι] [DecidableEq τ]

/-- The guard becomes `guard`, or is no longer there. -/
def setGuard (s : Guarding ι τ) (g : ι) (guard : Option (τ × Guard)) : Guarding ι τ :=
  { s with guards := Function.update s.guards g guard }

/-- The constructor of a guard that has no mutex. -/
def construct (s : Guarding ι τ) (g : ι) (t : τ) (guard : Guard) : Option (Guarding ι τ) :=
  match s.guards g with
  | none => some (s.setGuard g (some (t, guard)))
  | some _ => none

/-- The constructor of a guard that locks the mutex. -/
def constructLocked (s : Guarding ι τ) (g : ι) (t : τ) (guard : Guard) : Option (Guarding ι τ) :=
  (s.mutex.lock t).bind fun mutex ↦ { s with mutex }.construct g t guard

/-- One call. It has no result while the thread has to wait for the mutex, and where the guard has
no such member function. -/
def step (a : GuardAction ι τ) (s : Guarding ι τ) : Option (Guarding ι τ) :=
  match a with
  | .optionalLockGuard g t lock =>
    if lock then s.constructLocked g t (.optionalLockGuard lock)
    else s.construct g t (.optionalLockGuard lock)
  | .tryLockGuard g t => s.construct g t (.tryLockGuard false)
  | .lockGuard g t => s.constructLocked g t .lockGuard
  | .releasableLockGuard g t => s.constructLocked g t (.releasableLockGuard true)
  | .tryLock g t =>
    match s.guards g with
    | some (_, .tryLockGuard _) =>
      let (mutex, isLocked) := s.mutex.tryLock t
      some ({ s with mutex }.setGuard g (some (t, .tryLockGuard isLocked)))
    | _ => none
  | .release g t =>
    match s.guards g with
    | some (u, .releasableLockGuard lock) =>
      if lock then
        let mutex := s.mutex.unlock t
        some ({ s with mutex }.setGuard g (some (u, .releasableLockGuard false)))
      else some s
    | _ => none
  | .destruct g t =>
    match s.guards g with
    | some (_, guard) => some ({ s with mutex := guard.destruct t s.mutex }.setGuard g none)
    | none => none

/-- The action is a `tryLock` of a guard that has locked the mutex. -/
def retries (a : GuardAction ι τ) (s : Guarding ι τ) : Bool :=
  match a with
  | .tryLock g _ =>
    match s.guards g with
    | some (_, .tryLockGuard isLocked) => isLocked
    | _ => false
  | _ => false

/-- The action unlocks the mutex through a guard through which another thread has locked it. -/
def unlocksForeign (a : GuardAction ι τ) (s : Guarding ι τ) : Bool :=
  match a with
  | .release g t | .destruct g t =>
    match s.guards g with
    | some (u, guard) => guard.holds && decide (u ≠ t)
    | none => false
  | _ => false

/-- The action asks no guard that has locked the mutex to try again, and leaves the unlocking to the
thread that has locked. -/
def Disciplined (a : GuardAction ι τ) (s : Guarding ι τ) : Prop :=
  s.retries a = false ∧ s.unlocksForeign a = false

instance (a : GuardAction ι τ) : DecidablePred (Disciplined (ι := ι) a) := fun _ ↦
  inferInstanceAs (Decidable (_ ∧ _))

/-- The guard is there, and is to unlock the mutex. -/
def Holds : Option (τ × Guard) → Prop
  | some (_, guard) => guard.holds = true
  | none => False

/-- The mutex is held by the thread that has locked it through the one guard that is to unlock it,
or is free and there is none. -/
structure Balanced (s : Guarding ι τ) : Prop where
  /-- At most one guard is to unlock the mutex. -/
  exclusive : ∀ g h, Holds (s.guards g) → Holds (s.guards h) → g = h
  /-- A thread holds the mutex exactly if it has locked it through a guard that is to unlock it. -/
  holder : ∀ t, s.mutex.holder = some t ↔
    ∃ g guard, s.guards g = some (t, guard) ∧ guard.holds = true
  /-- No thread has unlocked the mutex that did not hold it. -/
  notMisused : s.mutex.misused = false

/-! ### Steps

A guard that is constructed without a lock, or whose `tryLock` fails, is not to unlock the mutex.
Only one of the others can be there at a time, as each of them has got the mutex when it was free.
-/

variable {s s' : Guarding ι τ} {a : GuardAction ι τ}

/-- What a disciplined step can do. -/
inductive Step (s : Guarding ι τ) : Guarding ι τ → Prop
  | locks {g t guard} (hfree : s.mutex.holder = none) (hbefore : ¬Holds (s.guards g))
    (hholds : guard.holds = true) :
    Step s ({ s with mutex := { s.mutex with holder := some t } }.setGuard g (some (t, guard)))
  | unlocks {g t guard after} (hguard : s.guards g = some (t, guard))
    (hholds : guard.holds = true) (hafter : ¬Holds after) :
    Step s ({ s with mutex := s.mutex.unlock t }.setGuard g after)
  | leaves {g after} (hbefore : ¬Holds (s.guards g)) (hafter : ¬Holds after) :
    Step s (s.setGuard g after)
  | idles : Step s s

/-- The constructor of a guard that is not to unlock the mutex. -/
theorem Step.of_construct {g : ι} {t : τ} {guard : Guard} (hholds : guard.holds = false)
    (h : s.construct g t guard = some s') : Step s s' := by
  rw [construct] at h
  split at h
  · have hbefore : ¬Holds (s.guards g) := by simp [Holds, *]
    have hafter : ¬Holds (some (t, guard)) := by simp [Holds, hholds]
    exact Option.some.inj h ▸ .leaves hbefore hafter
  · simp at h

/-- The constructor of a guard that is to unlock the mutex. -/
theorem Step.of_constructLocked {g : ι} {t : τ} {guard : Guard} (hholds : guard.holds = true)
    (h : s.constructLocked g t guard = some s') : Step s s' := by
  obtain ⟨mutex, hlock, h⟩ := Option.bind_eq_some_iff.1 h
  rw [BasicLockable.lock] at hlock
  split at hlock
  · rw [construct] at h
    split at h
    · have hbefore : ¬Holds (s.guards g) := by
        rename_i hguard
        simp only at hguard
        simp [Holds, hguard]
      obtain rfl := Option.some.inj hlock
      exact Option.some.inj h ▸ .locks ‹_› hbefore hholds
    · simp at h
  · simp at hlock

/-- Everything that a disciplined step can do. -/
theorem Step.of_step (h : step a s = some s') (ha : s.Disciplined a) : Step s s' := by
  obtain ⟨hretries, hforeign⟩ := ha
  cases a with
  | optionalLockGuard g t lock =>
    simp only [step] at h
    split_ifs at h with hlock
    · exact .of_constructLocked (by simp [Guard.holds, hlock]) h
    · exact .of_construct (by simp [Guard.holds, hlock]) h
  | tryLockGuard g t => exact .of_construct rfl h
  | lockGuard g t => exact .of_constructLocked rfl h
  | releasableLockGuard g t => exact .of_constructLocked rfl h
  | tryLock g t =>
    simp only [step] at h
    split at h
    · rename_i u isLocked hguard
      have hfirst : isLocked = false := by simpa [retries, hguard] using hretries
      have hbefore : ¬Holds (s.guards g) := by simp [Holds, hguard, Guard.holds, hfirst]
      rw [← Option.some.inj h]
      cases hholder : s.mutex.holder with
      | none =>
        simp only [BasicLockable.tryLock, hholder]
        exact .locks hholder hbefore rfl
      | some v =>
        simp only [BasicLockable.tryLock, hholder]
        exact .leaves hbefore (by simp [Holds, Guard.holds])
    · simp at h
  | release g t =>
    simp only [step] at h
    split at h
    · rename_i u lock hguard
      split_ifs at h with hlock
      · -- the thread that unlocks is the one that has locked
        obtain rfl : u = t := by simpa [unlocksForeign, hguard, Guard.holds, hlock] using hforeign
        exact Option.some.inj h ▸ .unlocks hguard hlock (by simp [Holds, Guard.holds])
      · exact Option.some.inj h ▸ .idles
    · simp at h
  | destruct g t =>
    simp only [step] at h
    split at h
    · rename_i u guard hguard
      rw [← Option.some.inj h, Guard.destruct_eq]
      split_ifs with hholds
      · obtain rfl : u = t := by simpa [unlocksForeign, hguard, hholds] using hforeign
        exact .unlocks hguard hholds (by simp [Holds])
      · exact .leaves (by simpa [Holds, hguard] using hholds) (by simp [Holds])
    · simp at h

/-- A second try stores its outcome in the guard. -/
theorem exists_of_retries (h : step a s = some s') (ha : s.retries a = true) :
    ∃ g u t, s.guards g = some (u, .tryLockGuard true) ∧
      s' = { s with mutex := (s.mutex.tryLock t).1 }.setGuard g
        (some (t, .tryLockGuard (s.mutex.tryLock t).2)) := by
  cases a with
  | tryLock g t =>
    simp only [step] at h
    split at h
    · rename_i u isLocked hguard
      have hlocked : isLocked = true := by simpa [retries, hguard] using ha
      exact ⟨g, u, t, hlocked ▸ hguard, (Option.some.inj h).symm⟩
    · simp at h
  | _ => simp [retries] at ha

/-- A foreign unlock is an unlock of the mutex by another thread than the guard's. -/
theorem exists_of_unlocksForeign (h : step a s = some s') (ha : s.unlocksForeign a = true) :
    ∃ g u guard t, s.guards g = some (u, guard) ∧ guard.holds = true ∧ u ≠ t ∧
      s'.mutex = s.mutex.unlock t := by
  cases a with
  | release g t =>
    simp only [step] at h
    split at h
    · rename_i u lock hguard
      have hlock : lock = true ∧ u ≠ t := by
        simpa [unlocksForeign, hguard, Guard.holds] using ha
      rw [if_pos hlock.1] at h
      exact ⟨g, u, _, t, hguard, hlock.1, hlock.2, by rw [← Option.some.inj h]; rfl⟩
    · simp at h
  | destruct g t =>
    simp only [step] at h
    split at h
    · rename_i u guard hguard
      have hholds : guard.holds = true ∧ u ≠ t := by
        simpa [unlocksForeign, hguard] using ha
      rw [Guard.destruct_eq, if_pos hholds.1] at h
      exact ⟨g, u, guard, t, hguard, hholds.1, hholds.2, by rw [← Option.some.inj h]; rfl⟩
    · simp at h
  | _ => simp [unlocksForeign] at ha

/-- A misuse of the mutex is never undone. -/
theorem misused_of_step (h : step a s = some s') (hs : s.mutex.misused = true) :
    s'.mutex.misused = true := by
  have hconstruct : ∀ {s₀ : Guarding ι τ} {g t guard}, s₀.mutex.misused = true →
      s₀.construct g t guard = some s' → s'.mutex.misused = true := by
    intro s₀ g t guard hs₀ h₀
    rw [construct] at h₀
    split at h₀
    · rw [← Option.some.inj h₀]
      exact hs₀
    · simp at h₀
  have hlocked : ∀ {g t guard}, s.constructLocked g t guard = some s' →
      s'.mutex.misused = true := by
    intro g t guard h₀
    obtain ⟨mutex, hlock, h₀⟩ := Option.bind_eq_some_iff.1 h₀
    exact hconstruct (show mutex.misused = true by rw [BasicLockable.misused_of_lock hlock, hs]) h₀
  cases a with
  | optionalLockGuard g t lock =>
    simp only [step] at h
    split_ifs at h
    · exact hlocked h
    · exact hconstruct hs h
  | tryLockGuard g t => exact hconstruct hs h
  | lockGuard g t => exact hlocked h
  | releasableLockGuard g t => exact hlocked h
  | tryLock g t =>
    simp only [step] at h
    split at h
    · rw [← Option.some.inj h]
      exact (BasicLockable.misused_of_tryLock t s.mutex).symm ▸ hs
    · simp at h
  | release g t =>
    simp only [step] at h
    split at h
    · split_ifs at h
      · rw [← Option.some.inj h]
        exact BasicLockable.misused_of_unlock t hs
      · exact Option.some.inj h ▸ hs
    · simp at h
  | destruct g t =>
    simp only [step] at h
    split at h
    · rw [← Option.some.inj h, Guard.destruct_eq]
      split_ifs
      · exact BasicLockable.misused_of_unlock t hs
      · exact hs
    · simp at h

/-! ### The invariant

The invariant names the guard that is to unlock the mutex. A lapse leaves the mutex either unlocked
by a thread that does not hold it, or locked with no guard to unlock it, and neither is ever mended.
-/

/-- The mutex is held by the thread that has locked it through `holder`, the one guard that is to
unlock it, or is free. -/
structure HeldBy (s : Guarding ι τ) (holder : Option ι) : Prop where
  /-- `holder` is the one guard that is to unlock the mutex. -/
  guards : Threads.Guards Holds s.guards holder
  /-- The thread that has locked through it holds the mutex. -/
  mutex : s.mutex.holder = (holder.bind s.guards).map Prod.fst
  /-- No thread has unlocked the mutex that did not hold it. -/
  notMisused : s.mutex.misused = false

/-- Some guard, or none, has the mutex. -/
def Inv (s : Guarding ι τ) : Prop := ∃ holder, s.HeldBy holder

/-- The mutex is held, and no guard will unlock it. -/
structure Leaked (s : Guarding ι τ) (t : τ) : Prop where
  /-- No guard is to unlock the mutex. -/
  guards : ∀ g, ¬Holds (s.guards g)
  /-- The thread holds it. -/
  mutex : s.mutex.holder = some t

/-- The mutex has been unlocked by a thread that did not hold it, or is held for good. -/
def Spoilt (s : Guarding ι τ) : Prop :=
  s.mutex.misused = true ∨ ∃ t, s.Leaked t

omit [DecidableEq ι] [DecidableEq τ] in
/-- A guard that is to unlock the mutex is there. -/
theorem exists_of_holds {g : ι} (h : Holds (s.guards g)) :
    ∃ t guard, s.guards g = some (t, guard) ∧ guard.holds = true := by
  cases hguard : s.guards g with
  | none => simp [Holds, hguard] at h
  | some p => exact ⟨p.1, p.2, rfl, by simpa [Holds, hguard] using h⟩

omit [DecidableEq ι] [DecidableEq τ] in
/-- A free mutex is in no guard's hands. -/
theorem HeldBy.holder_eq_none {holder : Option ι} (hs : s.HeldBy holder)
    (hfree : s.mutex.holder = none) : holder = none := by
  cases holder with
  | none => rfl
  | some g =>
    obtain ⟨t, guard, hguard, -⟩ := exists_of_holds ((hs.guards g).2 rfl)
    rw [hs.mutex, Option.bind_some, hguard] at hfree
    simp at hfree

omit [DecidableEq ι] [DecidableEq τ] in
/-- The thread that has locked through a guard that is to unlock the mutex holds it. -/
theorem HeldBy.mutex_eq {holder : Option ι} (hs : s.HeldBy holder) {g : ι} {t : τ} {guard : Guard}
    (hguard : s.guards g = some (t, guard)) (hholds : guard.holds = true) :
    holder = some g ∧ s.mutex.holder = some t := by
  have hholder : holder = some g := (hs.guards g).1 (by rw [hguard]; exact hholds)
  refine ⟨hholder, ?_⟩
  rw [hs.mutex, hholder, Option.bind_some, hguard]
  rfl

/-- A disciplined step keeps the invariant. -/
theorem Inv.step (hs : s.Inv) (h : Step s s') : s'.Inv := by
  obtain ⟨holder, hs⟩ := hs
  cases h with
  | @locks g t guard hfree hbefore hholds =>
    obtain rfl := hs.holder_eq_none hfree
    exact ⟨some g, hs.guards.acquire hholds, by simp [setGuard], hs.notMisused⟩
  | @unlocks g t guard after hguard hholds hafter =>
    obtain ⟨hholder, hmutex⟩ := hs.mutex_eq hguard hholds
    have hunlock : s.mutex.unlock t = { s.mutex with holder := none } := if_pos hmutex
    have hg : Holds (s.guards g) := by rw [hguard]; exact hholds
    refine ⟨none, hs.guards.release hg hafter, ?_, ?_⟩
    · simp only [setGuard, hunlock, Option.bind_none, Option.map_none]
    · simp only [setGuard, hunlock, hs.notMisused]
  | @leaves g after hbefore hafter =>
    refine ⟨holder, hs.guards.move (iff_of_false hafter hbefore), ?_, hs.notMisused⟩
    cases holder with
    | none => exact hs.mutex
    | some h =>
      have hne : h ≠ g := fun heq ↦ hbefore (heq ▸ (hs.guards h).2 rfl)
      simp only [setGuard, Option.bind_some, Function.update_of_ne hne]
      exact hs.mutex
  | idles => exact ⟨holder, hs⟩

/-- Nothing unlocks a mutex that no guard is to unlock. -/
theorem Leaked.step {t : τ} (hs : s.Leaked t) (h : Step s s') : s'.Leaked t := by
  cases h with
  | locks hfree => simp [hs.mutex] at hfree
  | @unlocks g u guard after hguard hholds => exact absurd hholds (by
      have hg := hs.guards g
      rwa [hguard] at hg)
  | @leaves g after hbefore hafter =>
    refine ⟨fun h ↦ ?_, hs.mutex⟩
    by_cases hg : h = g
    · subst hg
      simpa only [setGuard, Function.update_self] using hafter
    · simpa only [setGuard, Function.update_of_ne hg] using hs.guards h
  | idles => exact hs

omit [DecidableEq ι] in
/-- No guard being to unlock the mutex, none can be asked again, and none unlocks it. -/
theorem Leaked.disciplined {t : τ} (hs : s.Leaked t) (a : GuardAction ι τ) : s.Disciplined a := by
  have hholds : ∀ {g u guard}, s.guards g = some (u, guard) → guard.holds = false := by
    intro g u guard hguard
    have hg := hs.guards g
    rw [hguard] at hg
    simpa [Holds] using hg
  have hforeign : ∀ g u, (match s.guards g with
      | some (v, guard) => guard.holds && decide (v ≠ u)
      | none => false) = false := by
    intro g u
    split
    · simp [hholds ‹_›]
    · rfl
  cases a with
  | tryLock g u =>
    refine ⟨?_, rfl⟩
    simp only [retries]
    split
    · exact hholds ‹_›
    · rfl
  | release g u => exact ⟨rfl, hforeign g u⟩
  | destruct g u => exact ⟨rfl, hforeign g u⟩
  | _ => exact ⟨rfl, rfl⟩

/-- The second try of a guard fails, and so takes the mutex from the guard only. -/
theorem Inv.leaked_of_retries (hs : s.Inv) (h : Guarding.step a s = some s')
    (ha : s.retries a = true) : ∃ t, s'.Leaked t := by
  obtain ⟨holder, hs⟩ := hs
  obtain ⟨g, u, t, hguard, hs'⟩ := exists_of_retries h ha
  obtain ⟨rfl, hmutex⟩ := hs.mutex_eq hguard rfl
  have hfails : s.mutex.tryLock t = (s.mutex, false) := by
    simp only [BasicLockable.tryLock, hmutex]
  rw [hfails] at hs'
  subst hs'
  refine ⟨u, fun h hholds ↦ ?_, hmutex⟩
  by_cases hg : h = g
  · subst hg
    simp [setGuard, Holds, Guard.holds] at hholds
  · simp only [setGuard, Function.update_of_ne hg] at hholds
    exact hg (Option.some.inj ((hs.guards h).1 hholds)).symm

/-- A foreign unlock is an unlock by a thread that does not hold the mutex. -/
theorem Inv.misused_of_unlocksForeign (hs : s.Inv) (h : Guarding.step a s = some s')
    (ha : s.unlocksForeign a = true) : s'.mutex.misused = true := by
  obtain ⟨holder, hs⟩ := hs
  obtain ⟨g, u, guard, t, hguard, hholds, hne, hmutex⟩ := exists_of_unlocksForeign h ha
  have hholder : s.mutex.holder ≠ some t := by
    rw [(hs.mutex_eq hguard hholds).2]
    simpa using hne
  rw [hmutex, BasicLockable.unlock, if_neg hholder]

/-- Each lapse spoils the mutex. -/
theorem Inv.spoilt (hs : s.Inv) (h : Guarding.step a s = some s') (ha : ¬s.Disciplined a) :
    s'.Spoilt := by
  cases hretries : s.retries a with
  | true => exact .inr (hs.leaked_of_retries h hretries)
  | false =>
    have hforeign : s.unlocksForeign a = true := by simpa [Disciplined, hretries] using ha
    exact .inl (hs.misused_of_unlocksForeign h hforeign)

/-- A spoilt mutex stays so, whatever is called. -/
theorem Spoilt.step (hs : s.Spoilt) (h : Guarding.step a s = some s') : s'.Spoilt := by
  obtain hmisused | ⟨t, hleaked⟩ := hs
  · exact .inl (misused_of_step h hmisused)
  · exact .inr ⟨t, hleaked.step (.of_step h (hleaked.disciplined a))⟩

omit [DecidableEq ι] [DecidableEq τ] in
/-- The invariant is the balance, with the guard named. -/
theorem Inv.balanced (hs : s.Inv) : s.Balanced := by
  obtain ⟨holder, hs⟩ := hs
  refine ⟨fun g h hg hh ↦ hs.guards.unique hg hh, fun t ↦ ⟨fun ht ↦ ?_, ?_⟩, hs.notMisused⟩
  · rw [hs.mutex] at ht
    obtain ⟨⟨u, guard⟩, hbind, rfl⟩ := Option.map_eq_some_iff.1 ht
    obtain ⟨g, hg, hguard⟩ := Option.bind_eq_some_iff.1 hbind
    have hholds : Holds (s.guards g) := (hs.guards g).2 hg
    rw [hguard] at hholds
    exact ⟨g, guard, hguard, hholds⟩
  · rintro ⟨g, guard, hguard, hholds⟩
    exact (hs.mutex_eq hguard hholds).2

omit [DecidableEq ι] [DecidableEq τ] in
/-- A spoilt mutex is out of balance. -/
theorem Spoilt.not_balanced (hs : s.Spoilt) : ¬s.Balanced := by
  intro hbalanced
  obtain hmisused | ⟨t, hleaked⟩ := hs
  · simp [hbalanced.notMisused] at hmisused
  · obtain ⟨g, guard, hguard, hholds⟩ := (hbalanced.holder t).1 hleaked.mutex
    have hg : ¬Holds (s.guards g) := hleaked.guards g
    rw [hguard] at hg
    exact hg hholds

omit [DecidableEq ι] [DecidableEq τ] in
theorem inv_empty : Inv ({} : Guarding ι τ) :=
  ⟨none, fun g ↦ by simp [Holds], rfl, rfl⟩

/-- A run keeps the mutex with its guards up to the first lapse, which spoils it for good. -/
theorem inv_or_spoilt {as : List (GuardAction ι τ)} (hrun : run step as {} = some s) :
    (Meets step (fun a s ↦ s.Disciplined a) as {} → s.Inv) ∧
      (¬Meets step (fun a s ↦ s.Disciplined a) as {} → s.Spoilt) := by
  refine run_induction
    (P := fun as s ↦ (Meets step (fun a s ↦ s.Disciplined a) as {} → s.Inv) ∧
      (¬Meets step (fun a s ↦ s.Disciplined a) as {} → s.Spoilt))
    ⟨fun _ ↦ inv_empty, fun h ↦ absurd trivial h⟩ ?_ hrun
  intro as a s s' has ih hstep
  have hmeets : Meets step (fun a s ↦ s.Disciplined a) (as ++ [a]) {} ↔
      Meets step (fun a s ↦ s.Disciplined a) as {} ∧ s.Disciplined a := by
    rw [meets_append_iff]
    simp [has, Meets]
  rw [hmeets]
  by_cases hbefore : Meets step (fun a s ↦ s.Disciplined a) as {}
  · have hs : s.Inv := ih.1 hbefore
    exact ⟨fun h ↦ hs.step (.of_step hstep h.2),
      fun h ↦ hs.spoilt hstep fun ha ↦ h ⟨hbefore, ha⟩⟩
  · have hs : s.Spoilt := ih.2 hbefore
    exact ⟨fun h ↦ absurd h.1 hbefore, fun _ ↦ hs.step hstep⟩

/-- In every interleaving, whichever threads call the guards: the mutex is held exactly by the
thread that has locked it through the one guard that is to unlock it, and nobody has unlocked it
without holding it, if and only if no `TryLockGuard` that has locked the mutex has been asked again
and no guard that was to unlock it has been released or destroyed by another thread. -/
theorem balanced_iff {as : List (GuardAction ι τ)} (hrun : run step as {} = some s) :
    s.Balanced ↔ Meets step (fun a s ↦ s.Disciplined a) as {} := by
  constructor
  · intro hbalanced
    by_contra hmeets
    exact ((inv_or_spoilt hrun).2 hmeets).not_balanced hbalanced
  · exact fun hmeets ↦ ((inv_or_spoilt hrun).1 hmeets).balanced

/-- A guard that tries twice, and is destroyed. -/
def triedTwice : List (GuardAction Bool Bool) :=
  [.tryLockGuard true true, .tryLock true true, .tryLock true true, .destruct true true]

/-- A guard that is released by another thread than the one that has constructed it. -/
def releasedElsewhere : List (GuardAction Bool Bool) :=
  [.releasableLockGuard true true, .release true false]

/-- Both lapses, and one run without. After a second try, the mutex is locked for good. -/
theorem balanced_iff_triedTwice :
    (∃ s : Guarding Bool Bool, run step triedTwice {} = some s ∧
      step (.lockGuard false false) s = none ∧ ¬s.Balanced) ∧
    (∃ s : Guarding Bool Bool, run step releasedElsewhere {} = some s ∧ ¬s.Balanced) ∧
    ∃ s : Guarding Bool Bool,
      run step [.releasableLockGuard true true, .release true true] {} = some s ∧ s.Balanced := by
  refine ⟨⟨_, rfl, rfl, fun h ↦ ?_⟩, ⟨_, rfl, fun h ↦ ?_⟩, ⟨_, rfl, ?_⟩⟩
  · have hmeets := (balanced_iff (show run step triedTwice {} = some _ from rfl)).1 h
    revert hmeets
    decide
  · have hmeets := (balanced_iff (show run step releasedElsewhere {} = some _ from rfl)).1 h
    revert hmeets
    decide
  · refine (balanced_iff (show run step [.releasableLockGuard true true, .release true true]
      ({} : Guarding Bool Bool) = some _ from rfl)).2 ?_
    decide

end Guarding

end TcpServer.Thread
