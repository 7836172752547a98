import TcpServer.Event.Dispatcher

/-!
# Cross-thread `post`

The list, the pending flag and the callers are touched by several threads, and the argument that no
callback is left behind is an invariant over all of them at once: `PostInv.armed`. The emptiness
test and the scheduling are separate steps, so the list may be non-empty with nothing pending — as
long as the caller that found it empty has still to schedule, or the dispatcher thread has still to
take the list. `PostInv.fifo` is the order: the callbacks appended are those executed, then the
batch, then the list.

Only eight of the dispatcher's actions concern `post`. `post_frame` says once that every other
action leaves the mechanism alone.

The history fields `posted` and `executed` make the order of a whole run a statement about a state.
What the theorem says of batches is about runs between two takes, and has a run lemma of its own
(`batch_suffix_of_run`): until the next take the loop only executes what it has taken.
-/

namespace TcpServer.Event

open Machine Dispatcher

variable {ι : Type*}

/-- The actions of `post`, `run` and `runPostCallbacks`. -/
def Action.isPost : Action ι → Bool
  | .postAppend .. | .postSchedule _ | .run | .postFire | .postClear | .postTake | .postExecute
  | .postReturn => true
  | _ => false

namespace Dispatcher

/-- The loop is inside `runPostCallbacks` and has not yet taken the list. -/
def aboutToTake (s : Dispatcher ι) : Prop := s.loop = .postEntered ∨ s.loop = .postTaking

/-- The invariant of the post queue. -/
structure PostInv (s : Dispatcher ι) : Prop where
  /-- What was appended is what was executed, then the rest of the batch, then the list. -/
  fifo : s.posted = s.executed ++ s.batch ++ s.postCallbacks
  /-- A non-empty list has somebody who will take it. -/
  armed : s.postCallbacks ≠ [] →
    s.postCb.pending = true ∨ (∃ t, s.caller t = .posted true) ∨ s.aboutToTake

/-- Nothing that the post queue's invariant mentions is lost between `s` and `s'`. -/
structure PostFrame (s s' : Dispatcher ι) : Prop where
  /-- The list. -/
  postCallbacks : s'.postCallbacks = s.postCallbacks
  /-- The callback. -/
  postCb : s'.postCb = s.postCb
  /-- What has been posted. -/
  posted : s'.posted = s.posted
  /-- What has been executed. -/
  executed : s'.executed = s.executed
  /-- The batch under way. -/
  batch : s'.batch = s.batch
  /-- A thread that owes the scheduling still does. -/
  caller : ∀ t, s.caller t = .posted true → s'.caller t = .posted true
  /-- A loop that is about to take the list still is. -/
  aboutToTake : s.aboutToTake → s'.aboutToTake

/-- The invariant is about these members only. -/
theorem PostInv.of_frame {s s' : Dispatcher ι} (hs : s.PostInv) (h : PostFrame s s') :
    s'.PostInv where
  fifo := by rw [h.posted, h.executed, h.batch, h.postCallbacks, hs.fifo]
  armed hne := by
    rw [h.postCallbacks] at hne
    rw [h.postCb]
    rcases hs.armed hne with hp | ⟨t, ht⟩ | hl
    · exact Or.inl hp
    · exact Or.inr (Or.inl ⟨t, h.caller t ht⟩)
    · exact Or.inr (Or.inr (h.aboutToTake hl))

theorem postInv_init : ({} : Dispatcher ι).PostInv := ⟨rfl, fun h ↦ absurd rfl h⟩

variable [DecidableEq ι]

/-- **Every action outside the mechanism leaves it alone.** -/
theorem post_frame {a : Action ι} {s s' : Dispatcher ι} (ha : a.isPost = false)
    (h : dispatcherStep a s = some s') : PostFrame s s' := by
  cases a <;> simp only [Action.isPost, reduceCtorEq] at ha <;>
    simp only [dispatcherStep, Option.ite_none_right_eq_some, Option.some.injEq] at h
  case deleteAppend t d =>
    obtain ⟨hcall, rfl⟩ := h
    refine ⟨rfl, rfl, rfl, rfl, rfl, fun u hu ↦ ?_, id⟩
    -- `t` is in no call, and `u` is inside a post
    have hne : u ≠ t := by
      rintro rfl
      simp [mayCall, hu] at hcall
    simpa [deleteAppend, setCaller, Function.update_of_ne hne] using hu
  case deleteSchedule t =>
    split at h
    · rename_i b hb
      obtain rfl := Option.some.inj h
      refine ⟨rfl, rfl, rfl, rfl, rfl, fun u hu ↦ ?_, id⟩
      have hne : u ≠ t := by
        rintro rfl
        simp [hb] at hu
      simpa [deleteSchedule, setCaller, Function.update_of_ne hne] using hu
    · cases h
  case deferredDelete o =>
    obtain ⟨-, rfl⟩ := h
    obtain ⟨_, _, _, _, heq⟩ := s.deferredDelete_frame o
    rw [heq]
    exact ⟨rfl, rfl, rfl, rfl, rfl, fun _ ↦ id, id⟩
  case clearDeferredDeleteList =>
    obtain ⟨-, rfl⟩ := h
    obtain ⟨_, _, _, heq⟩ := s.clearDeferredDeleteList_frame
    rw [heq]
    exact ⟨rfl, rfl, rfl, rfl, rfl, fun _ ↦ id, id⟩
  case passReset | passEnd =>
    split at h
    · obtain ⟨-, rfl⟩ := by simpa using h
      exact ⟨rfl, rfl, rfl, rfl, rfl, fun _ ↦ id, id⟩
    · cases h
  case deferredFire | threadLocalFire =>
    obtain ⟨⟨-, hloop⟩, h⟩ := h
    obtain ⟨cb, -, rfl⟩ := Option.map_eq_some_iff.1 h
    exact ⟨rfl, rfl, rfl, rfl, by simp [batch, hloop], fun _ ↦ id, by simp [aboutToTake, hloop]⟩
  case deferredClear =>
    obtain ⟨⟨-, hloop⟩, rfl⟩ := h
    obtain ⟨_, _, _, heq⟩ := s.clearDeferredDeleteList_frame
    rw [heq]
    exact ⟨rfl, rfl, rfl, rfl, by simp [batch, hloop], fun _ ↦ id, by simp [aboutToTake, hloop]⟩
  case threadLocalPop | shutdownPop =>
    split at h
    · rename_i hloop
      obtain ⟨-, rfl⟩ := by simpa using h
      exact ⟨rfl, rfl, rfl, rfl, by simp [batch, hloop], fun _ ↦ id,
        by simp [aboutToTake, hloop]⟩
    · cases h
  case threadLocalTake | threadLocalReturn | shutdown | shutdownTake | shutdownReturn =>
    obtain ⟨⟨-, hloop⟩, rfl⟩ := h
    exact ⟨rfl, rfl, rfl, rfl, by simp [batch, hloop], fun _ ↦ id, by simp [aboutToTake, hloop]⟩

/-! ### The eight actions of the mechanism

An append puts one more callback at the end of the list, and whoever has found it empty owes the
scheduling. The take moves the list to the batch, and an execution moves the front of the batch to
the history.
-/

/-- An append may leave the list non-empty with nothing pending, but then its thread owes the
scheduling. -/
theorem postInv_postAppend {s : Dispatcher ι} (hs : s.PostInv) {t : Option ι} {cb : ℕ}
    (hcall : s.mayCall t) : (s.postAppend t cb).PostInv where
  fifo := by
    show s.posted ++ [cb] = s.executed ++ s.batch ++ (s.postCallbacks ++ [cb])
    rw [hs.fifo, List.append_assoc _ s.postCallbacks]
  armed _ := by
    rcases hq : s.postCallbacks with - | ⟨c, cs⟩
    · -- the list was empty: `t` itself now owes the scheduling
      refine Or.inr (Or.inl ⟨t, ?_⟩)
      simp [postAppend, setCaller, hq]
    · rcases hs.armed (by simp [hq]) with hp | ⟨u, hu⟩ | hl
      · exact Or.inl hp
      · have hne : u ≠ t := by
          rintro rfl
          simp [mayCall, hu] at hcall
        refine Or.inr (Or.inl ⟨u, ?_⟩)
        simpa [postAppend, setCaller, Function.update_of_ne hne] using hu
      · exact Or.inr (Or.inr hl)

/-- The scheduling leaves the callback pending if it was owed. -/
theorem postInv_postSchedule {s : Dispatcher ι} (hs : s.PostInv) {t : Option ι} {doPost : Bool}
    (ht : s.caller t = .posted doPost) : (s.postSchedule t doPost).PostInv where
  fifo := hs.fifo
  armed hne := by
    cases doPost with
    | true => exact Or.inl (by simp [postSchedule])
    | false =>
      rcases hs.armed hne with hp | ⟨u, hu⟩ | hl
      · exact Or.inl (by simpa [postSchedule] using hp)
      · have hne : u ≠ t := by
          rintro rfl
          simp [ht] at hu
        refine Or.inr (Or.inl ⟨u, ?_⟩)
        simpa [postSchedule, setCaller, Function.update_of_ne hne] using hu
      · exact Or.inr (Or.inr hl)

/-- **Every step keeps the invariant.** -/
theorem postInv_step {a : Action ι} {s s' : Dispatcher ι} (hs : s.PostInv)
    (h : dispatcherStep a s = some s') : s'.PostInv := by
  rcases ha : a.isPost with - | -
  · exact hs.of_frame (post_frame ha h)
  cases a <;> simp only [Action.isPost, reduceCtorEq] at ha <;>
    simp only [dispatcherStep, Option.ite_none_right_eq_some, Option.some.injEq] at h
  case postAppend t cb =>
    obtain ⟨hcall, rfl⟩ := h
    exact postInv_postAppend hs hcall
  case postSchedule t =>
    split at h
    · rename_i ht
      exact Option.some.inj h ▸ postInv_postSchedule hs ht
    · cases h
  case run =>
    obtain ⟨⟨-, hloop⟩, rfl⟩ := h
    exact ⟨by simpa [batch, hloop] using hs.fifo, fun _ ↦ Or.inr (Or.inr (Or.inl rfl))⟩
  case postFire =>
    obtain ⟨⟨-, hloop⟩, h⟩ := h
    obtain ⟨cb, -, rfl⟩ := Option.map_eq_some_iff.1 h
    exact ⟨by simpa [batch, hloop] using hs.fifo, fun _ ↦ Or.inr (Or.inr (Or.inl rfl))⟩
  case postClear =>
    obtain ⟨⟨-, hloop⟩, rfl⟩ := h
    obtain ⟨_, _, _, heq⟩ := s.clearDeferredDeleteList_frame
    rw [heq]
    exact ⟨by simpa [batch, hloop] using hs.fifo, fun _ ↦ Or.inr (Or.inr (Or.inr rfl))⟩
  case postTake =>
    obtain ⟨⟨-, hloop⟩, rfl⟩ := h
    exact ⟨by simpa [batch, hloop] using hs.fifo, fun hne ↦ absurd rfl hne⟩
  case postExecute =>
    split at h
    · rename_i cb cbs hloop
      obtain ⟨-, rfl⟩ := by simpa using h
      refine ⟨by simpa [batch, hloop] using hs.fifo, fun hne ↦ ?_⟩
      -- the loop has taken its list already, so the debt is not its own
      rcases hs.armed hne with hp | hu | hl
      · exact Or.inl hp
      · exact Or.inr (Or.inl hu)
      · simp [aboutToTake, hloop] at hl
    · cases h
  case postReturn =>
    obtain ⟨⟨-, hloop⟩, rfl⟩ := h
    refine ⟨by simpa [batch, hloop] using hs.fifo, fun hne ↦ ?_⟩
    rcases hs.armed hne with hp | hu | hl
    · exact Or.inl hp
    · exact Or.inr (Or.inl hu)
    · simp [aboutToTake, hloop] at hl

/-- The invariant of every reachable state. -/
theorem postInv_of_reachable {s : Dispatcher ι} (hs : Reachable dispatcherStep {} s) : s.PostInv :=
  invariant_of_reachable postInv_init (fun _ _ _ ↦ postInv_step) hs

/-! ### Batches -/

/-- Between two takes the batch only loses callbacks at its front. -/
theorem batch_suffix_of_step {a : Action ι} {s s' : Dispatcher ι} (ha : a ≠ .postTake)
    (h : dispatcherStep a s = some s') : s'.batch <:+ s.batch := by
  rcases hp : a.isPost with - | -
  · exact (post_frame hp h).batch ▸ List.suffix_rfl
  cases a <;> simp only [Action.isPost, reduceCtorEq] at hp <;>
    simp only [dispatcherStep, Option.ite_none_right_eq_some, Option.some.injEq] at h
  case postAppend t cb =>
    obtain ⟨-, rfl⟩ := h
    exact List.suffix_rfl
  case postSchedule t =>
    split at h
    · exact Option.some.inj h ▸ List.suffix_rfl
    · cases h
  case postFire =>
    obtain ⟨-, h⟩ := h
    obtain ⟨cb, -, rfl⟩ := Option.map_eq_some_iff.1 h
    exact List.nil_suffix
  case postTake => exact (ha rfl).elim
  case postExecute =>
    split at h
    · rename_i cb cbs hloop
      obtain ⟨-, rfl⟩ := by simpa using h
      simp only [batch, hloop]
      exact List.suffix_cons _ _
    · cases h
  case run | postClear | postReturn =>
    obtain ⟨-, rfl⟩ := h
    exact List.nil_suffix

/-- The run lemma for the batch. -/
theorem batch_suffix_of_run {as : List (Action ι)} {s s' : Dispatcher ι}
    (has : Action.postTake ∉ as) (h : Machine.run dispatcherStep as s = some s') :
    s'.batch <:+ s.batch := by
  induction as generalizing s with
  | nil => exact Option.some.inj h ▸ List.suffix_rfl
  | cons a as ih =>
    obtain ⟨t, ht, h⟩ := (run_cons_eq_some_iff dispatcherStep).1 h
    rw [List.mem_cons, not_or] at has
    exact (ih has.2 h).trans (batch_suffix_of_step (fun ha ↦ has.1 ha.symm) ht)

end Dispatcher

/-- **`post` loses and duplicates nothing.** In every state reached by any interleaving: the
callbacks executed, the rest of the batch and the list are together the callbacks appended, in that
order (so each is executed at most once, and in the order of the appends); until the next take the
batch only shrinks and what is posted meanwhile goes to the list; and a non-empty list has its
callback pending, or a poster that found it empty and has still to schedule, or the loop inside
`runPostCallbacks` before the take. -/
theorem post_loses_nothing [DecidableEq ι] {s : Dispatcher ι}
    (hs : Reachable dispatcherStep {} s) :
    s.posted = s.executed ++ s.batch ++ s.postCallbacks ∧
      s.executed <+: s.posted ∧
      (∀ as s', Machine.run dispatcherStep as s = some s' → Action.postTake ∉ as →
        s'.batch <:+ s.batch) ∧
      (∀ t cb s', dispatcherStep (.postAppend t cb) s = some s' →
        s'.batch = s.batch ∧ s'.postCallbacks = s.postCallbacks ++ [cb]) ∧
      (s.postCallbacks ≠ [] →
        s.postCb.pending = true ∨ (∃ t, s.caller t = .posted true) ∨
          s.loop = .postEntered ∨ s.loop = .postTaking) := by
  have hinv := postInv_of_reachable hs
  refine ⟨hinv.fifo, ?_, fun as s' h has ↦ batch_suffix_of_run has h, fun t cb s' h ↦ ?_,
    hinv.armed⟩
  · rw [hinv.fifo, List.append_assoc]
    exact List.prefix_append _ _
  · simp only [dispatcherStep, Option.ite_none_right_eq_some, Option.some.injEq] at h
    obtain ⟨-, rfl⟩ := h
    exact ⟨rfl, rfl⟩

/-- Two posters between the append and the scheduling: only the first, which found the list empty,
still owes the wake-up, and nothing is pending. -/
def twoPosters : List (Action Bool) :=
  [.postAppend (some false) 7, .postAppend (some true) 8, .postSchedule (some true)]

/-- Both callbacks are in the list and nothing is pending, but the first poster owes the scheduling.
-/
theorem post_loses_nothing_twoPosters :
    ∃ s, Machine.run dispatcherStep twoPosters {} = some s ∧
      s.postCb.pending = false ∧ s.postCallbacks = [7, 8] ∧
      (s.postCb.pending = true ∨ (∃ t, s.caller t = .posted true) ∨
        s.loop = .postEntered ∨ s.loop = .postTaking) :=
  ⟨_, rfl, rfl, rfl, (post_loses_nothing ⟨twoPosters, rfl⟩).2.2.2.2 (by decide)⟩

end TcpServer.Event
