import TcpServer.Event.Dispatcher

/-!
# Deletion in the dispatcher's thread

`deleteInDispatcherThread` may be called from anywhere; its list is emptied by the passes of
`runThreadLocalDelete` and, when the loop has exited, by `shutdown`. Whatever is appended is
destroyed in the order of the appends (`DeletableInv`), as long as somebody still takes the list.

`shutdown` takes it once. What is appended between that take and the return — by a destructor that
`shutdown` itself runs, or by another thread — stays in the list, whose callback will never fire:
`shutdown_leaves_deletable` is the shortest such run, and `shutdown_destroys_all_iff` says that
these appends are all that can go wrong.

A run is clean if no append lands in that time, which is a condition on its actions and the states
before them (`NoAppendDuringShutdown`). In a clean run the list is empty at the return; in any other
one the appended deletable stays (`shutdownLate_step`), since nothing takes the list any more. So
the condition is exact.
-/

namespace TcpServer.Event

open Machine Dispatcher

variable {ι : Type*}

/-- The actions that take, destroy or append deletables. -/
def Action.isDeletable : Action ι → Bool
  | .deleteAppend .. | .threadLocalTake | .threadLocalPop | .threadLocalReturn | .shutdownTake
  | .shutdownPop | .shutdownReturn => true
  | _ => false

/-- No append lands between the take of `shutdown` and its return. -/
def NoAppendDuringShutdown (a : Action ι) (s : Dispatcher ι) : Prop :=
  ∀ l, s.loop = .shutdownRunning l → ∀ t d, a ≠ .deleteAppend t d

namespace Dispatcher

/-- What was appended is what was destroyed, then what has been taken, then the list. -/
def DeletableInv (s : Dispatcher ι) : Prop :=
  s.appended = s.deleted ++ s.localDeletables ++ s.deletables

/-- While `shutdown` destroys what it took, the list stays empty. -/
def ShutdownClean (s : Dispatcher ι) : Prop := ∀ l, s.loop = .shutdownRunning l → s.deletables = []

/-- `shutdown` has taken the list, and something is in it. -/
def ShutdownLate (s : Dispatcher ι) : Prop :=
  ((∃ l, s.loop = .shutdownRunning l) ∨ s.loop = .down) ∧ s.deletables ≠ []

/-- Nothing that concerns the deletables differs between `s` and `s'`. -/
structure DeletableFrame (s s' : Dispatcher ι) : Prop where
  /-- The list. -/
  deletables : s'.deletables = s.deletables
  /-- What has been appended. -/
  appended : s'.appended = s.appended
  /-- What has been destroyed. -/
  deleted : s'.deleted = s.deleted
  /-- What a pass or `shutdown` has taken. -/
  localDeletables : s'.localDeletables = s.localDeletables
  /-- Whether `shutdown` is destroying, and what. -/
  shutdownRunning : ∀ l, s'.loop = .shutdownRunning l ↔ s.loop = .shutdownRunning l
  /-- Whether `shutdown` has returned. -/
  down : s'.loop = .down ↔ s.loop = .down

variable [DecidableEq ι]

/-- **Every action outside the mechanism leaves it alone.** -/
theorem deletable_frame {a : Action ι} {s s' : Dispatcher ι} (ha : a.isDeletable = false)
    (h : dispatcherStep a s = some s') : DeletableFrame s s' := by
  -- most of these actions leave the loop where it is, too
  have hsame : ∀ {t : Dispatcher ι}, t.deletables = s.deletables → t.appended = s.appended →
      t.deleted = s.deleted → t.loop = s.loop → DeletableFrame s t := fun h₁ h₂ h₃ h₄ ↦
    ⟨h₁, h₂, h₃, by simp [localDeletables, h₄], fun _ ↦ by rw [h₄], by rw [h₄]⟩
  cases a <;> simp only [Action.isDeletable, reduceCtorEq] at ha <;>
    simp only [dispatcherStep, Option.ite_none_right_eq_some, Option.some.injEq] at h
  case postAppend t cb =>
    obtain ⟨-, rfl⟩ := h
    exact hsame rfl rfl rfl rfl
  case postSchedule | deleteSchedule =>
    split at h
    · exact Option.some.inj h ▸ hsame rfl rfl rfl rfl
    · cases h
  case deferredDelete o =>
    obtain ⟨-, rfl⟩ := h
    obtain ⟨_, _, _, _, heq⟩ := s.deferredDelete_frame o
    rw [heq]
    exact hsame rfl rfl rfl rfl
  case clearDeferredDeleteList =>
    obtain ⟨-, rfl⟩ := h
    obtain ⟨_, _, _, heq⟩ := s.clearDeferredDeleteList_frame
    rw [heq]
    exact hsame rfl rfl rfl rfl
  case passReset | passEnd =>
    split at h
    · obtain ⟨-, rfl⟩ := by simpa using h
      exact hsame rfl rfl rfl rfl
    · cases h
  case postFire | deferredFire | threadLocalFire =>
    obtain ⟨⟨-, hloop⟩, h⟩ := h
    obtain ⟨cb, -, rfl⟩ := Option.map_eq_some_iff.1 h
    exact ⟨rfl, rfl, rfl, by simp [localDeletables, hloop], by simp [hloop], by simp [hloop]⟩
  case postClear | deferredClear =>
    obtain ⟨⟨-, hloop⟩, rfl⟩ := h
    obtain ⟨_, _, _, heq⟩ := s.clearDeferredDeleteList_frame
    rw [heq]
    exact ⟨rfl, rfl, rfl, by simp [localDeletables, hloop], by simp [hloop], by simp [hloop]⟩
  case postExecute =>
    split at h
    · rename_i hloop
      obtain ⟨-, rfl⟩ := by simpa using h
      exact ⟨rfl, rfl, rfl, by simp [localDeletables, hloop], by simp [hloop], by simp [hloop]⟩
    · cases h
  case run | postTake | postReturn | shutdown =>
    obtain ⟨⟨-, hloop⟩, rfl⟩ := h
    exact ⟨rfl, rfl, rfl, by simp [localDeletables, hloop], by simp [hloop], by simp [hloop]⟩

/-- What an action of the mechanism does, and the guard that it has passed. -/
inductive DeletableStep (s : Dispatcher ι) : Action ι → Dispatcher ι → Prop
  | append {t d} : s.mayCall t → DeletableStep s (.deleteAppend t d) (s.deleteAppend t d)
  | take : s.loopReady → s.loop = .threadLocalEntered →
    DeletableStep s .threadLocalTake
      { s with deletables := [], loop := .threadLocalRunning s.deletables }
  | pop {d ds} : s.loopReady → s.loop = .threadLocalRunning (d :: ds) →
    DeletableStep s .threadLocalPop
      { s with deleted := s.deleted ++ [d], loop := .threadLocalRunning ds }
  | passReturn : s.loopReady → s.loop = .threadLocalRunning [] →
    DeletableStep s .threadLocalReturn { s with loop := .idle }
  | shutdownTake : s.loopReady → s.loop = .shutdownEntered →
    DeletableStep s .shutdownTake { s with deletables := [], loop := .shutdownRunning s.deletables }
  | shutdownPop {d ds} : s.loopReady → s.loop = .shutdownRunning (d :: ds) →
    DeletableStep s .shutdownPop { s with deleted := s.deleted ++ [d], loop := .shutdownRunning ds }
  | shutdownReturn : s.loopReady → s.loop = .shutdownRunning [] →
    DeletableStep s .shutdownReturn { s with shutdownCalled := true, loop := .down }

/-- The actions of the mechanism, taken apart once. -/
theorem deletableStep_of_step {a : Action ι} {s s' : Dispatcher ι} (ha : a.isDeletable = true)
    (h : dispatcherStep a s = some s') : DeletableStep s a s' := by
  cases a <;> simp only [Action.isDeletable, reduceCtorEq] at ha <;>
    simp only [dispatcherStep, Option.ite_none_right_eq_some, Option.some.injEq] at h
  case deleteAppend t d =>
    obtain ⟨hcall, rfl⟩ := h
    exact .append hcall
  case threadLocalPop =>
    split at h
    · obtain ⟨hready, rfl⟩ := by simpa using h
      exact .pop hready (by assumption)
    · cases h
  case shutdownPop =>
    split at h
    · obtain ⟨hready, rfl⟩ := by simpa using h
      exact .shutdownPop hready (by assumption)
    · cases h
  case threadLocalTake =>
    obtain ⟨⟨hready, hloop⟩, rfl⟩ := h
    exact .take hready hloop
  case threadLocalReturn =>
    obtain ⟨⟨hready, hloop⟩, rfl⟩ := h
    exact .passReturn hready hloop
  case shutdownTake =>
    obtain ⟨⟨hready, hloop⟩, rfl⟩ := h
    exact .shutdownTake hready hloop
  case shutdownReturn =>
    obtain ⟨⟨hready, hloop⟩, rfl⟩ := h
    exact .shutdownReturn hready hloop

/-! ### Order

A deletable goes from the list to what was taken, and from there to what was destroyed, always at
the front.
-/

/-- **Every step keeps the order.** -/
theorem deletableInv_step {a : Action ι} {s s' : Dispatcher ι} (hs : s.DeletableInv)
    (h : dispatcherStep a s = some s') : s'.DeletableInv := by
  unfold DeletableInv at hs ⊢
  rcases ha : a.isDeletable with - | -
  · have hf := deletable_frame ha h
    rw [hf.appended, hf.deleted, hf.localDeletables, hf.deletables, hs]
  · match deletableStep_of_step ha h with
    | .append (d := d) _ =>
      show s.appended ++ [d] = s.deleted ++ s.localDeletables ++ (s.deletables ++ [d])
      rw [hs, List.append_assoc _ s.deletables]
    | .pop _ hloop | .shutdownPop _ hloop => simpa [localDeletables, hloop] using hs
    | .take _ hloop | .passReturn _ hloop | .shutdownTake _ hloop | .shutdownReturn _ hloop =>
      simpa [localDeletables, hloop] using hs

/-- The run lemma for the order. -/
theorem deletableInv_of_run {as : List (Action ι)} {s : Dispatcher ι}
    (h : Machine.run dispatcherStep as {} = some s) : s.DeletableInv :=
  invariant_of_run (fun _ _ _ ↦ deletableInv_step) h rfl

/-! ### The list during `shutdown`

From the take of `shutdown` on nobody empties the list any more. It stays empty without an append,
and never becomes empty after one.
-/

/-- A step that is not a late append keeps the list empty while `shutdown` runs. -/
theorem shutdownClean_step {a : Action ι} {s s' : Dispatcher ι} (hs : s.ShutdownClean)
    (hC : NoAppendDuringShutdown a s) (h : dispatcherStep a s = some s') : s'.ShutdownClean := by
  intro l hl
  rcases ha : a.isDeletable with - | -
  · have hf := deletable_frame ha h
    rw [hf.deletables]
    exact hs l ((hf.shutdownRunning l).1 hl)
  · match deletableStep_of_step ha h with
    | .append (t := t) (d := d) _ => exact absurd rfl (hC l hl t d)
    | .shutdownPop _ hloop => exact hs _ hloop
    | .shutdownTake _ _ => rfl
    | .take _ _ | .pop _ _ | .passReturn _ _ | .shutdownReturn _ _ => cases hl

/-- Once something is in the list that `shutdown` has taken, it stays there. -/
theorem shutdownLate_step {a : Action ι} {s s' : Dispatcher ι} (hs : s.ShutdownLate)
    (h : dispatcherStep a s = some s') : s'.ShutdownLate := by
  obtain ⟨hloop, hne⟩ := hs
  rcases ha : a.isDeletable with - | -
  · have hf := deletable_frame ha h
    simp only [ShutdownLate, hf.deletables, hf.shutdownRunning, hf.down]
    exact ⟨hloop, hne⟩
  · match deletableStep_of_step ha h with
    | .append _ => exact ⟨hloop, by simp [deleteAppend]⟩
    | .shutdownPop _ _ => exact ⟨Or.inl ⟨_, rfl⟩, hne⟩
    | .shutdownReturn _ _ => exact ⟨Or.inr rfl, hne⟩
    | .take _ heq | .pop _ heq | .passReturn _ heq | .shutdownTake _ heq => simp [heq] at hloop

end Dispatcher

/-- **When `shutdown` keeps the guarantee of `deleteInDispatcherThread`.** At the return of
`shutdown`, everything appended so far has been destroyed, once each and in the order of the
appends, and nothing is left in the list, if and only if no append landed between its take and its
return. -/
theorem shutdown_destroys_all_iff [DecidableEq ι] {as : List (Action ι)} {s : Dispatcher ι}
    (h : Machine.run dispatcherStep (as ++ [.shutdownReturn]) {} = some s) :
    s.deleted = s.appended ∧ s.deletables = [] ↔
      Meets dispatcherStep NoAppendDuringShutdown as {} := by
  have hinv := deletableInv_of_run h
  obtain ⟨t, ht, hret⟩ := (run_append_eq_some_iff dispatcherStep).1 h
  rw [run_singleton] at hret
  simp only [dispatcherStep, Option.ite_none_right_eq_some, Option.some.injEq] at hret
  obtain ⟨⟨-, hloop⟩, rfl⟩ := hret
  constructor
  · rintro ⟨-, hnil⟩
    refine meets_of_forall fun bs a cs u hsplit hu l hl t' d ha ↦ ?_
    -- the append at `u` leaves something in the list, and it is still there at the return
    rw [hsplit, ha] at ht
    obtain ⟨u', hu', hcs⟩ := (run_append_eq_some_iff dispatcherStep).1 ht
    obtain rfl := Option.some.inj (hu.symm.trans hu')
    obtain ⟨v, hv, hcs⟩ := (run_cons_eq_some_iff dispatcherStep).1 hcs
    have hlate : v.ShutdownLate := by
      simp only [dispatcherStep, Option.ite_none_right_eq_some, Option.some.injEq] at hv
      obtain ⟨-, rfl⟩ := hv
      exact ⟨Or.inl ⟨l, hl⟩, by simp [deleteAppend]⟩
    exact (invariant_of_run (fun _ _ _ ↦ shutdownLate_step) hcs hlate).2 hnil
  · intro hmeets
    have hclean : t.ShutdownClean :=
      invariant_of_meets (fun _ _ _ ↦ shutdownClean_step) ht hmeets (fun _ hl ↦ (nomatch hl))
    have hnil := hclean [] hloop
    refine ⟨?_, hnil⟩
    simpa [DeletableInv, localDeletables, hnil] using hinv.symm

/-- A deletable appended before `shutdown`, another one while it is being destroyed by a delete
pass: both are gone at the return. -/
def quietShutdown : List (Action Bool) :=
  [.deleteAppend (some true) 0, .deleteSchedule (some true), .threadLocalFire, .threadLocalTake,
    .threadLocalPop, .deleteAppend none 1, .deleteSchedule none, .threadLocalReturn, .shutdown,
    .shutdownTake, .shutdownPop]

/-- The second append comes before `shutdown` takes the list, so nothing is left. -/
theorem shutdown_destroys_all_iff_quietShutdown :
    ∃ s, Machine.run dispatcherStep (quietShutdown ++ [.shutdownReturn]) {} = some s ∧
      s.appended = [0, 1] ∧ Meets dispatcherStep NoAppendDuringShutdown quietShutdown {} :=
  ⟨_, rfl, rfl, (shutdown_destroys_all_iff rfl).1 ⟨rfl, rfl⟩⟩

/-- A deletable whose destructor, run by `shutdown`, appends another one. -/
def lateAppend : List (Action Empty) :=
  [.deleteAppend none 0, .deleteSchedule none, .shutdown, .shutdownTake, .shutdownPop,
    .deleteAppend none 1, .deleteSchedule none]

/-- **`shutdown` may return with a deletable in the list.** -/
theorem shutdown_leaves_deletable :
    ¬ ∀ (as : List (Action Empty)) (s : Dispatcher Empty),
      Machine.run dispatcherStep (as ++ [.shutdownReturn]) {} = some s →
        s.deleted = s.appended ∧ s.deletables = [] :=
  fun h ↦ absurd (h lateAppend _ rfl).2 (by decide)

end TcpServer.Event
