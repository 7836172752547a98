import TcpServer.Buffer.Pool
import Mathlib.Algebra.BigOperators.Ring.Finset

/-!
# Trackers, fragments and accounts

What the slices owe and what has been called is conserved by every step, so over a run it adds up to
what was registered (`ledger_of_run`). That one law says everything about callbacks and accounts; it
is read off with a different valuation of the calls each time.

* `tally t` counts the calls of a tracker: as many as were registered, less those that live slices
  still carry. Each slice over a fragment carries its `done()`, so there are no more such slices
  than calls of `done()` to come.
* `balance a` adds up charges and credits: the balance of an account is the total capacity of the
  live slices that are charged to it.

The live slices are those of all buffers, those that a reservation holds and those that were handed
out, so nothing is lost when a slice changes its place. Both theorems are about every state of every
run over the pool, with any number of buffers and reservations.
-/

namespace TcpServer.Buffer

namespace Pool

variable {ι κ α : Type*}

/-- The trackers that the calls of a run register, in order. -/
def registrations (ops : List (Op ι κ α)) : List DrainTracker := ops.flatMap Op.registered

theorem registrations_append (ops ops' : List (Op ι κ α)) :
    registrations (ops ++ ops') = registrations ops ++ registrations ops' :=
  List.flatMap_append

variable [Fintype ι] [Fintype κ]

variable [DecidableEq ι] [DecidableEq κ]

/-- What the carriers of a list of trackers owe is one call of each. -/
theorem owed_carrying (g : Event → ℤ) (trackers : List DrainTracker) :
    Ledger.owed Slice.releaseEvents g
        (slicesOf (trackers.map (.carrying : DrainTracker → Slice α))).1 =
      Ledger.value g (trackers.map .called) := by
  induction trackers with
  | nil => rfl
  | cons t trackers ih =>
    have hone : Ledger.owed Slice.releaseEvents g (slicesOf [(.carrying t : Slice α)]).1 =
        g (.called t) := by
      simp [slicesOf, Slice.carrying, Slice.releaseEvents]
    rw [List.map_cons, slicesOf_cons, Prod.fst_add, Ledger.owed_add, ih, hone, List.map_cons,
      Ledger.value_cons]

/-- **The law of the ledger.** What live slices owe and what has been called is what was
registered. -/
theorem ledger_of_run {fragments fresh : ℕ → ℕ → α} {ops : List (Op ι κ α)} {st : Pool ι κ α}
    (hrun : Machine.run step ops (init fragments fresh) = some st) {g : Event → ℤ}
    (hg : Balanced g) :
    Ledger.owed Slice.releaseEvents g st.live + Ledger.value g st.world.events =
      Ledger.value g ((registrations ops).map .called) := by
  refine (Machine.run_induction (P := fun ops st ↦ st.Valid ∧
    Ledger.owed Slice.releaseEvents g st.live + Ledger.value g st.world.events =
      Ledger.value g ((registrations ops).map .called)) ⟨valid_init fragments fresh, ?_⟩
    (fun ops op s s' _ ih hstep ↦ ?_) hrun).2
  · rw [← inventory_fst, inventory_init]
    rfl
  · obtain ⟨hs, hledger⟩ := ih
    have hsteps := hs.steps hstep
    have hlaw : Ledger.owed Slice.releaseEvents g s'.live + Ledger.value g s'.world.events =
        Ledger.owed Slice.releaseEvents g s.live + Ledger.value g (op.registered.map .called) +
          Ledger.value g s.world.events := by
      have := hsteps.evolves.ledger g hg
      rwa [Prod.fst_add, Ledger.owed_add, inventory_fst, inventory_fst, owed_carrying] at this
    refine ⟨hs.of_step hstep, ?_⟩
    have hone : registrations [op] = op.registered := List.append_nil _
    rw [registrations_append, hone, List.map_append, Ledger.value_append, hlaw, ← hledger]
    omega

/-! ### Trackers

A release of a slice calls the trackers that it carries, so the number of calls and the number of
live carriers add up. The valuation counts the calls of one tracker and nothing else.
-/

/-- The number of calls of `t`. -/
def timesCalled (st : Pool ι κ α) (t : DrainTracker) : ℕ := st.world.events.count (.called t)

/-- The number of times live slices carry `t`. -/
def timesCarried (st : Pool ι κ α) (t : DrainTracker) : ℕ :=
  (st.live.map fun s ↦ s.drainTrackers.count t).sum

/-- The live slices over the memory of fragment `f`. -/
def referring (st : Pool ι κ α) (f : ℕ) : Multiset (Slice α) :=
  st.live.filter fun s ↦ s.base = some (.fragment f)

end Pool

/-- Counts the calls of `t`. -/
def tally (t : DrainTracker) : Event → ℤ
  | .called u => if u = t then 1 else 0
  | _ => 0

theorem balanced_tally (t : DrainTracker) : Balanced (tally t) := fun _ _ ↦ rfl

theorem value_tally (t : DrainTracker) (es : List Event) :
    Ledger.value (tally t) es = es.count (.called t) := by
  induction es with
  | nil => rfl
  | cons e es ih =>
    rw [Ledger.value_cons, ih, List.count_cons]
    cases e <;> simp [tally, add_comm]

theorem value_tally_called (t : DrainTracker) (trackers : List DrainTracker) :
    Ledger.value (tally t) (trackers.map .called) = trackers.count t := by
  rw [value_tally, List.count_map_of_injective _ _ fun _ _ h ↦ Event.called.inj h]

theorem value_tally_releaseEvents (t : DrainTracker) (s : Slice α) :
    Ledger.value (tally t) s.releaseEvents = s.drainTrackers.count t := by
  have hcredit : Ledger.value (tally t) (s.account.map (Event.credit · s.capacity)).toList = 0 := by
    cases s.account <;> rfl
  rw [Slice.releaseEvents, Ledger.value_append, value_tally_called, hcredit, add_zero]

/-- What each of the objects owes at most once bounds their number. -/
theorem card_filter_le_sum (S : Multiset (Slice α)) (P : Slice α → Prop) [DecidablePred P]
    (g : Slice α → ℕ) (h : ∀ s ∈ S, P s → 0 < g s) : (S.filter P).card ≤ (S.map g).sum := by
  induction S using Multiset.induction with
  | empty => exact Nat.le_refl 0
  | cons s S ih =>
    have hS := ih fun t ht ↦ h t (Multiset.mem_cons_of_mem ht)
    rw [Multiset.map_cons, Multiset.sum_cons]
    by_cases hs : P s
    · have hpos := h s (Multiset.mem_cons_self s S) hs
      rw [Multiset.filter_cons_of_pos S hs, Multiset.card_cons]
      omega
    · rw [Multiset.filter_cons_of_neg S hs]
      omega

namespace Pool

variable {ι κ : Type*} [Fintype ι]

theorem owed_tally (st : Pool ι κ α) (t : DrainTracker) :
    Ledger.owed Slice.releaseEvents (tally t) st.live = st.timesCarried t := by
  simp only [Ledger.owed, timesCarried, value_tally_releaseEvents]
  rw [Nat.cast_multiset_sum, Multiset.map_map]
  rfl

variable [Fintype κ]

/-- A slice over a fragment owes the fragment's `done()`. -/
theorem Valid.card_referring_le {st : Pool ι κ α} (hst : st.Valid) (f : ℕ) :
    (st.referring f).card ≤ st.timesCarried (.done f) := by
  refine card_filter_le_sum st.live _ _ fun s hs hbase ↦ List.count_pos_iff.2 ?_
  rw [← inventory_fst] at hs
  exact ((hst.slices s hs).external f hbase).2

variable [DecidableEq ι] [DecidableEq κ] {fragments fresh : ℕ → ℕ → α} {ops : List (Op ι κ α)}
  {st : Pool ι κ α}

theorem valid_of_run (hrun : Machine.run step ops (init fragments fresh) = some st) : st.Valid :=
  valid_of_reachable ⟨ops, hrun⟩

/-- A tracker has been called, or is carried, as often as it was registered. -/
theorem timesCalled_add_timesCarried
    (hrun : Machine.run step ops (init fragments fresh) = some st) (t : DrainTracker) :
    st.timesCalled t + st.timesCarried t = (registrations ops).count t := by
  have := ledger_of_run hrun (balanced_tally t)
  rw [owed_tally, value_tally, value_tally_called] at this
  rw [timesCalled]
  omega

/-- **Trackers and fragment releases fire exactly once.** A registered tracker has been called or is
carried by a live slice, as often as it was registered. There are at most as many slices over the
memory of a fragment as there are calls of its `done()` to come, so none after `done()`; and when no
slice is left, everything has been called. -/
theorem trackers_called_once (hrun : Machine.run step ops (init fragments fresh) = some st) :
    (∀ t, st.timesCalled t + st.timesCarried t = (registrations ops).count t) ∧
      (∀ f, (st.referring f).card + st.timesCalled (.done f) ≤
        (registrations ops).count (.done f)) ∧
      (∀ f, (registrations ops).count (.done f) = 1 → 0 < st.timesCalled (.done f) →
        ∀ s ∈ st.live, s.base ≠ some (.fragment f)) ∧
      (st.live = 0 → ∀ t, st.timesCalled t = (registrations ops).count t) := by
  have hcount := timesCalled_add_timesCarried hrun
  have hbound (f : ℕ) : (st.referring f).card + st.timesCalled (.done f) ≤
      (registrations ops).count (.done f) := by
    have := (valid_of_run hrun).card_referring_le f
    have := hcount (.done f)
    omega
  refine ⟨hcount, hbound, fun f hone hcalled s hs hbase ↦ ?_, fun hlive t ↦ ?_⟩
  · have hmem : s ∈ st.referring f := Multiset.mem_filter.2 ⟨hs, hbase⟩
    have := Multiset.card_pos_iff_exists_mem.2 ⟨s, hmem⟩
    have := hbound f
    omega
  · have hnone : st.timesCarried t = 0 := by
      rw [timesCarried, hlive]
      rfl
    have := hcount t
    omega

end Pool

/-- A fragment and a tracker pass from one buffer to another, a reservation is committed and a slice
is extracted. In the end all is drained. -/
def shortLife : List (Op (Fin 2) (Fin 1) ℕ) :=
  [.bindAccount 0 (some 5), .addBufferFragment 0 ⟨0, 2⟩, .add 0 [1, 2, 3], .addDrainTracker 0 7,
    .move 1 0, .reserveSingleSlice 1 0 4 true, .write 0 0 1 [6, 7], .commit 0 3, .drain 1 1,
    .prepend 1 [9], .extractMutableFrontSlice 1, .destroySliceData 0, .drain 1 10, .destroy 0,
    .destroy 1]

/-- The tracker and the `done()` of the fragment are called once, and no slice is over the fragment.
-/
theorem Pool.trackers_called_once_shortLife :
    ∃ st, Machine.run step shortLife (init (fun _ _ ↦ 0) fun _ _ ↦ 0) = some st ∧
      st.timesCalled (.callback 7) = 1 ∧ st.timesCalled (.done 0) = 1 ∧
      ∀ s ∈ st.live, s.base ≠ some (.fragment 0) := by
  have hend : (Machine.run step shortLife (init (fun _ _ ↦ 0) fun _ _ ↦ 0)).map
      (fun st ↦ st.live.card) = some 0 := by decide
  obtain ⟨st, hrun, hcard⟩ := Option.map_eq_some_iff.1 hend
  obtain ⟨-, -, hdone, hall⟩ := trackers_called_once hrun
  have hcalled := hall (Multiset.card_eq_zero.1 hcard)
  have hdone' : st.timesCalled (.done 0) = 1 := (hcalled _).trans (by decide)
  exact ⟨st, hrun, (hcalled _).trans (by decide), hdone', hdone 0 (by decide) (by omega)⟩

/-! ### Accounts

A slice charges its account when it is made and credits it when it goes, with its capacity both
times. The valuation is an integer, since what live slices owe is negative.
-/

/-- Adds up what is charged to `a`, less what is credited. -/
def balance (a : ℕ) : Event → ℤ
  | .charge b n => if b = a then n else 0
  | .credit b n => if b = a then -n else 0
  | .called _ => 0

theorem balanced_balance (a : ℕ) : Balanced (balance a) := by
  intro b n
  simp only [balance]
  split_ifs <;> omega

/-- The amounts that an event charges to `a` and credits to it. -/
def Event.chargedTo (a : ℕ) : Event → ℕ
  | .charge b n => if b = a then n else 0
  | _ => 0

/-- What an event credits to the account. -/
def Event.creditedTo (a : ℕ) : Event → ℕ
  | .credit b n => if b = a then n else 0
  | _ => 0

theorem value_balance (a : ℕ) (es : List Event) :
    Ledger.value (balance a) es = ((es.map (Event.chargedTo a)).sum : ℤ) -
      ((es.map (Event.creditedTo a)).sum : ℤ) := by
  induction es with
  | nil => rfl
  | cons e es ih =>
    rw [Ledger.value_cons, ih, List.map_cons, List.map_cons, List.sum_cons, List.sum_cons]
    cases e with
    | called t =>
      simp only [balance, Event.chargedTo, Event.creditedTo]
      omega
    | charge b n =>
      simp only [balance, Event.chargedTo, Event.creditedTo]
      split_ifs <;> omega
    | credit b n =>
      simp only [balance, Event.chargedTo, Event.creditedTo]
      split_ifs <;> omega

theorem value_balance_called (a : ℕ) (trackers : List DrainTracker) :
    Ledger.value (balance a) (trackers.map .called) = 0 := by
  induction trackers with
  | nil => rfl
  | cons t trackers ih => rwa [List.map_cons, Ledger.value_cons, balance, zero_add]

/-- A slice that goes credits its account with its capacity. -/
theorem value_balance_releaseEvents (a : ℕ) (s : Slice α) :
    Ledger.value (balance a) s.releaseEvents = if s.account = some a then -(s.capacity : ℤ)
      else 0 := by
  rw [Slice.releaseEvents, Ledger.value_append, value_balance_called, zero_add]
  cases s.account with
  | none => rfl
  | some b => simp [balance]

namespace Pool

variable {ι κ : Type*}

/-- All that was charged to account `a`. -/
def charged (st : Pool ι κ α) (a : ℕ) : ℕ := (st.world.events.map (Event.chargedTo a)).sum

/-- All that was credited to account `a`. -/
def credited (st : Pool ι κ α) (a : ℕ) : ℕ := (st.world.events.map (Event.creditedTo a)).sum

variable [Fintype ι]

/-- The capacity of the live slices whose account is `a`. -/
def capacityOf (st : Pool ι κ α) (a : ℕ) : ℕ :=
  ((st.live.filter fun s ↦ s.account = some a).map Slice.capacity).sum

/-- What live slices owe is their capacity, taken off. -/
theorem owed_balance (st : Pool ι κ α) (a : ℕ) :
    Ledger.owed Slice.releaseEvents (balance a) st.live = -(st.capacityOf a : ℤ) := by
  rw [capacityOf, Ledger.owed]
  simp only [value_balance_releaseEvents]
  induction st.live using Multiset.induction with
  | empty => rfl
  | cons s S ih =>
    rw [Multiset.map_cons, Multiset.sum_cons, ih]
    by_cases hs : s.account = some a
    · rw [if_pos hs, Multiset.filter_cons_of_pos S hs, Multiset.map_cons, Multiset.sum_cons]
      omega
    · rw [if_neg hs, Multiset.filter_cons_of_neg S hs]
      omega

/-- A slice counts for at most one account. -/
theorem sum_capacityOf_le (st : Pool ι κ α) (accounts : Finset ℕ) :
    ∑ a ∈ accounts, st.capacityOf a ≤ (st.live.map Slice.capacity).sum := by
  unfold capacityOf
  induction st.live using Multiset.induction with
  | empty => simp
  | cons s S ih =>
    have hone (a : ℕ) : (((s ::ₘ S).filter fun s ↦ s.account = some a).map Slice.capacity).sum =
        (if s.account = some a then s.capacity else 0) +
          ((S.filter fun s ↦ s.account = some a).map Slice.capacity).sum := by
      by_cases hs : s.account = some a
      · rw [if_pos hs, Multiset.filter_cons_of_pos S hs, Multiset.map_cons, Multiset.sum_cons]
      · rw [if_neg hs, Multiset.filter_cons_of_neg S hs, zero_add]
    have hself : ∑ a ∈ accounts, (if s.account = some a then s.capacity else 0) ≤ s.capacity := by
      cases s.account with
      | none => simp
      | some b =>
        simp only [Option.some.injEq]
        rw [Finset.sum_ite_eq]
        split_ifs
        · exact Nat.le_refl _
        · exact Nat.zero_le _
    simp only [hone]
    rw [Finset.sum_add_distrib, Multiset.map_cons, Multiset.sum_cons]
    omega

variable [Fintype κ] [DecidableEq ι] [DecidableEq κ] {fragments fresh : ℕ → ℕ → α}
  {ops : List (Op ι κ α)} {st : Pool ι κ α}

/-- **Memory accounts are conserved.** What was charged to an account and not credited is the total
capacity of the live slices whose account it is, so it is never negative, and zero when no slice is
left. No slice counts for two accounts. -/
theorem accounts_conserved (hrun : Machine.run step ops (init fragments fresh) = some st) :
    (∀ a, (st.charged a : ℤ) - st.credited a = st.capacityOf a) ∧
      (∀ a, st.credited a ≤ st.charged a) ∧
      (∀ accounts : Finset ℕ, ∑ a ∈ accounts, ((st.charged a : ℤ) - st.credited a) ≤
        (st.live.map Slice.capacity).sum) ∧
      (st.live = 0 → ∀ a, st.charged a = st.credited a) := by
  have hlaw (a : ℕ) : (st.charged a : ℤ) - st.credited a = st.capacityOf a := by
    have := ledger_of_run hrun (balanced_balance a)
    rw [owed_balance, value_balance, value_balance_called] at this
    rw [charged, credited]
    omega
  refine ⟨hlaw, fun a ↦ ?_, fun accounts ↦ ?_, fun hlive a ↦ ?_⟩
  · have := hlaw a
    omega
  · simp only [hlaw]
    exact_mod_cast st.sum_capacityOf_le accounts
  · have hnone : st.capacityOf a = 0 := by
      rw [capacityOf, hlive]
      rfl
    have := hlaw a
    omega

end Pool

/-- All that was charged is credited in the end. -/
theorem Pool.accounts_conserved_shortLife :
    ∃ st, Machine.run step shortLife (init (fun _ _ ↦ 0) fun _ _ ↦ 0) = some st ∧
      st.charged 5 = 4096 ∧ st.credited 5 = 4096 ∧ st.capacityOf 5 = 0 := by
  have hend : (Machine.run step shortLife (init (fun _ _ ↦ 0) fun _ _ ↦ 0)).map
      (fun st ↦ (st.charged 5, st.live.card)) = some (4096, 0) := by decide
  obtain ⟨st, hrun, heq⟩ := Option.map_eq_some_iff.1 hend
  obtain ⟨hcharged, hcard⟩ := Prod.mk.inj heq
  obtain ⟨hlaw, -, -, hall⟩ := accounts_conserved hrun
  have hcredited := (hall (Multiset.card_eq_zero.1 hcard) 5).symm.trans hcharged
  have := hlaw 5
  exact ⟨st, hrun, hcharged, hcredited, by omega⟩

end TcpServer.Buffer
