import TcpServer.Lib.Ledger
import TcpServer.Buffer.SliceDeque
import Mathlib.Data.Multiset.Filter
import Mathlib.Algebra.Group.Prod

/-!
# What happens to slices

Whatever an operation does, it does to slices one at a time: a slice is created, its bytes are
rewritten, it takes on a tracker, hands its trackers over, is charged to an account, or is released.
`Evolves` is what all of these have in common, as a relation between two moments: which slices are
there (and which storages reservations hold), and what the world looks like.

* Well-formed slices stay well-formed, and so does the free list.
* The calls that the slices owe, together with the calls that were made, are conserved
  (`Ledger.Conserves`): a tracker is called or still owed, a charge is balanced by a credit. What
  has been called stays called.
* No storage comes to be owned twice, by slices, reservations or the free list. The invariant of the
  allocator, `Distinct`, is kept together with any other storages `F` around.
* The memory of fragments is left alone.

The relation composes (`Evolves.trans`) and ignores bystanders (`Evolves.frame`), so it holds of an
operation as soon as it holds of each of its steps.

The relation is a record of implications, each from something about the moment before to the same
about the moment after, so that an invariant of the pool is a matter of applying the fields. What
may not be concluded from it is what a particular operation does to the bytes; that is in `Effects`,
and needs no accounting.
-/

namespace TcpServer.Buffer

variable {α : Type*}

/-- A valuation for which a charge and a credit cancel. Calls of trackers may have any value. -/
def Balanced (g : Event → ℤ) : Prop := ∀ a n, g (.charge a n) + g (.credit a n) = 0

/-- A tracker that a caller hands in, accounted for as a slice that owes nothing but its call. -/
def Slice.carrying (t : DrainTracker) : Slice α := { drainTrackers := [t] }

/-- The storage that a slice owns. -/
def Slice.storageId (s : Slice α) : Option ℕ :=
  match s.base with
  | some (.storage id) => some id
  | _ => none

/-- Slices, and the storages held by reservations. -/
abbrev Inventory (α : Type*) := Multiset (Slice α) × Multiset ℕ

/-- The storages of an inventory. -/
def Inventory.blocks (S : Inventory α) : Multiset ℕ := S.1.filterMap Slice.storageId + S.2

/-- The inventory of a list of slices. -/
def slicesOf (l : List (Slice α)) : Inventory α := (l, 0)

/-- The storages in the free list. -/
def World.freeBlocks (w : World α) : Multiset ℕ := (w.freeList.map Storage.id : List ℕ)

/-- The storages in use are distinct, and the allocator has handed all of them out already. -/
def Distinct (blocks : Multiset ℕ) (next : ℕ) : Prop := blocks.Nodup ∧ ∀ id ∈ blocks, id < next

/-- What is kept between two moments, of the slices and storages concerned. -/
structure Evolves (S : Inventory α) (w : World α) (S' : Inventory α) (w' : World α) : Prop where
  /-- Slices stay well-formed. -/
  wf : (∀ s ∈ S.1, s.WF) → ∀ s ∈ S'.1, s.WF
  /-- So does the free list. -/
  world : w.WF → w'.WF
  /-- What is owed and what was called are conserved. -/
  ledger : Ledger.Conserves Slice.releaseEvents Balanced S.1 w.events S'.1 w'.events
  /-- No call is taken back. -/
  history : w.events <+: w'.events
  /-- Storages stay distinct, whatever others there are. -/
  separate : ∀ F : Multiset ℕ, Distinct (F + S.blocks + w.freeBlocks) w.next →
    Distinct (F + S'.blocks + w'.freeBlocks) w'.next
  /-- The memory of fragments is the same. -/
  fragments : w'.fragments = w.fragments

/-! ### Inventories

An inventory is a multiset, since nothing here depends on the order of the slices, and two
operations on different buffers are two steps on parts of one inventory.
-/

@[simp] theorem slicesOf_nil : slicesOf ([] : List (Slice α)) = 0 := rfl

theorem slicesOf_append (l l' : List (Slice α)) :
    slicesOf (l ++ l') = slicesOf l + slicesOf l' := by
  simp [slicesOf]

theorem slicesOf_cons (s : Slice α) (l : List (Slice α)) :
    slicesOf (s :: l) = slicesOf [s] + slicesOf l := slicesOf_append [s] l

theorem slicesOf_perm {l l' : List (Slice α)} (h : l.Perm l') : slicesOf l = slicesOf l' := by
  rw [slicesOf, slicesOf, Multiset.coe_eq_coe.2 h]

@[simp] theorem blocks_zero : (0 : Inventory α).blocks = 0 := rfl

@[simp] theorem blocks_add (S T : Inventory α) : (S + T).blocks = S.blocks + T.blocks := by
  simp only [Inventory.blocks, Prod.fst_add, Prod.snd_add, Multiset.filterMap_add]
  exact add_add_add_comm _ _ _ _

theorem blocks_slicesOf_singleton (s : Slice α) :
    (slicesOf [s]).blocks = (s.storageId.toList : Multiset ℕ) := by
  simp only [Inventory.blocks, slicesOf, add_zero, Multiset.filterMap_coe]
  cases h : s.storageId <;> simp [h]

theorem Slice.wf_carrying (t : DrainTracker) : (Slice.carrying t : Slice α).WF :=
  ⟨Nat.le_refl _, Nat.le_refl _, fun _ ↦ rfl, fun _ ↦ rfl, fun _ h ↦ (nomatch h),
    fun _ h ↦ (nomatch h)⟩

/-- Trackers need no memory. -/
theorem blocks_carrying (trackers : List DrainTracker) :
    (slicesOf (trackers.map (.carrying : DrainTracker → Slice α))).blocks = 0 := by
  induction trackers with
  | nil => rfl
  | cons t trackers ih =>
    rw [List.map_cons, slicesOf_cons, blocks_add, ih, blocks_slicesOf_singleton]
    rfl

@[simp] theorem freeBlocks_log (w : World α) (es : List Event) :
    (w.log es).freeBlocks = w.freeBlocks := rfl

/-- Fewer storages are distinct if more are. -/
theorem Distinct.mono {m m' : Multiset ℕ} {n : ℕ} (h : Distinct m n) (hle : m' ≤ m) :
    Distinct m' n :=
  ⟨Multiset.nodup_of_le hle h.1, fun id hid ↦ h.2 id (Multiset.mem_of_le hle hid)⟩

/-- A new storage is distinct from all others. -/
theorem Distinct.allocate {m : Multiset ℕ} {n : ℕ} (h : Distinct m n) :
    Distinct (n ::ₘ m) (n + 1) := by
  refine ⟨Multiset.nodup_cons.2 ⟨fun hn ↦ Nat.lt_irrefl n (h.2 n hn), h.1⟩, fun id hid ↦ ?_⟩
  rcases Multiset.mem_cons.1 hid with rfl | hid
  · omega
  · exact Nat.lt_succ_of_lt (h.2 id hid)

/-! ### Composition

Steps follow each other, and a step happens beside what it does not concern. The one about the
memory of fragments is for operations that do write to it: everything else they do is an evolution
of a world in which that has already happened.
-/

namespace Evolves

variable {S S' S'' : Inventory α} {w w' w'' : World α}

theorem refl (S : Inventory α) (w : World α) : Evolves S w S w :=
  ⟨fun h ↦ h, fun h ↦ h, .refl _ _, List.prefix_rfl, fun _ h ↦ h, rfl⟩

theorem trans (h : Evolves S w S' w') (h' : Evolves S' w' S'' w'') : Evolves S w S'' w'' :=
  ⟨fun hwf ↦ h'.wf (h.wf hwf), fun hw ↦ h'.world (h.world hw), h.ledger.trans h'.ledger,
    h.history.trans h'.history, fun F hF ↦ h'.separate F (h.separate F hF),
    h'.fragments.trans h.fragments⟩

/-- Others may be there, and are as they were. -/
theorem frame (h : Evolves S w S' w') (R : Inventory α) : Evolves (R + S) w (R + S') w' where
  wf hwf s hs := by
    rcases Multiset.mem_add.1 hs with hs | hs
    · exact hwf s (Multiset.mem_add.2 (.inl hs))
    · exact h.wf (fun t ht ↦ hwf t (Multiset.mem_add.2 (.inr ht))) s hs
  world := h.world
  ledger := h.ledger.frame R.1
  history := h.history
  separate F hF := by
    rw [blocks_add, ← add_assoc] at hF ⊢
    exact h.separate (F + R.blocks) hF
  fragments := h.fragments

theorem frame_right (h : Evolves S w S' w') (R : Inventory α) : Evolves (S + R) w (S' + R) w' := by
  rw [add_comm S, add_comm S']
  exact h.frame R

/-- All of this but the last field is blind to the memory of fragments. -/
theorem setFragments (h : Evolves S w S' w') (fragments : ℕ → ℕ → α) :
    Evolves S { w with fragments } S' { w' with fragments } :=
  ⟨h.wf, fun hw ↦ ⟨(h.world ⟨hw.1, hw.2⟩).1, (h.world ⟨hw.1, hw.2⟩).2⟩, h.ledger,
    h.history, h.separate, rfl⟩

theorem upToFragments (h : Evolves S w S' w') :
    Evolves S { w with fragments := w'.fragments } S' w' :=
  h.setFragments w'.fragments

/-- One slice in front of others. -/
theorem cons {s s' : Slice α} (h : Evolves (slicesOf [s]) w (slicesOf [s']) w')
    (l : List (Slice α)) : Evolves (slicesOf (s :: l)) w (slicesOf (s' :: l)) w' := by
  rw [slicesOf_cons, slicesOf_cons s']
  exact h.frame_right _

/-- One slice behind others. -/
theorem concat {s s' : Slice α} (h : Evolves (slicesOf [s]) w (slicesOf [s']) w')
    (l : List (Slice α)) : Evolves (slicesOf (l ++ [s])) w (slicesOf (l ++ [s'])) w' := by
  rw [slicesOf_append, slicesOf_append]
  exact h.frame _

end Evolves

/-! ### One slice at a time

Each function of `Slice` is an evolution of the slice, and so are the constructors and the release.
-/

theorem Slice.Same.storageId {s s' : Slice α} (h : s.Same s') : s'.storageId = s.storageId := by
  rw [Slice.storageId, Slice.storageId, h.base]

/-- Rewriting bytes concerns nobody. -/
theorem evolves_same {s s' : Slice α} (h : s.Same s') (hwf : s'.WF) (w : World α) :
    Evolves (slicesOf [s]) w (slicesOf [s']) w where
  wf _ t ht := by
    obtain rfl : t = s' := by simpa [slicesOf] using ht
    exact hwf
  ledger g _ := by
    simp [slicesOf, h.releaseEvents]
  world hw := ⟨hw.1, hw.2⟩
  history := List.prefix_rfl
  separate F hF := by
    rw [blocks_slicesOf_singleton] at hF ⊢
    rwa [h.storageId]
  fragments := rfl

/-- A slice that goes settles what it owes. -/
theorem evolves_release (s : Slice α) (w : World α) :
    Evolves (slicesOf [s]) w 0 (w.log s.releaseEvents) where
  wf _ t ht := absurd ht (Multiset.notMem_zero t)
  ledger := Ledger.conserves_release s w.events
  world hw := ⟨hw.1, hw.2⟩
  history := List.prefix_append _ _
  separate F hF := by
    refine hF.mono ?_
    rw [blocks_zero, add_zero, freeBlocks_log]
    gcongr
    exact Multiset.le_add_right F _
  fragments := rfl

/-- An empty slice owns nothing and owes nothing. -/
theorem evolves_empty (w : World α) : Evolves 0 w (slicesOf [.empty]) w where
  wf _ t ht := by
    obtain rfl : t = .empty := by simpa [slicesOf] using ht
    exact Slice.wf_empty
  ledger g _ := by
    simp [slicesOf]
  world hw := ⟨hw.1, hw.2⟩
  history := List.prefix_rfl
  separate F hF := hF
  fragments := rfl

/-- A new slice has a storage of its own, from the allocator, and charges its account. -/
theorem evolves_create (n : ℕ) (account : Option ℕ) (w : World α) :
    Evolves 0 w (slicesOf [(Slice.create n account w).1]) (Slice.create n account w).2 where
  wf _ t ht := by
    obtain rfl : t = _ := by simpa [slicesOf] using ht
    exact (Slice.fresh_create n account w).wf
  ledger := by
    refine Ledger.conserves_create (fun g hg ↦ ?_) w.events
    cases account with
    | none => rfl
    | some a =>
      have := hg a (sliceSize n)
      simp [Slice.create, Slice.releaseEvents, Slice.chargeEvents]
      omega
  world hw := ⟨hw.1, hw.2⟩
  history := List.prefix_append _ _
  separate F hF := by
    have : Distinct (w.next ::ₘ (F + w.freeBlocks)) (w.next + 1) := by
      refine Distinct.allocate ?_
      simpa using hF
    rw [blocks_slicesOf_singleton]
    have heq : F + ((Slice.create n account w).1.storageId.toList : Multiset ℕ) +
        (Slice.create n account w).2.freeBlocks = w.next ::ₘ (F + w.freeBlocks) := by
      rw [← Multiset.singleton_add, ← add_assoc, add_comm {w.next} F]
      rfl
    rwa [heq]
  fragments := rfl

/-- A slice built over a storage that a reservation held. -/
theorem evolves_ofStorage (storage : Storage α) {len usedSize : ℕ} (hlen : storage.size = len)
    (hused : usedSize ≤ len) (account : Option ℕ) (w : World α) :
    Evolves (0, {storage.id}) w (slicesOf [(Slice.ofStorage storage len usedSize account w).1])
      (Slice.ofStorage storage len usedSize account w).2 where
  wf _ t ht := by
    obtain rfl : t = _ := by simpa [slicesOf] using ht
    exact ⟨Nat.zero_le _, hused, fun _ ↦ rfl, fun h ↦ (nomatch h), fun _ h ↦ (nomatch h),
      fun | _, rfl => hlen⟩
  ledger := by
    refine Ledger.conserves_create (fun g hg ↦ ?_) w.events
    cases account with
    | none => rfl
    | some a =>
      have := hg a len
      simp [Slice.ofStorage, Slice.releaseEvents, Slice.chargeEvents]
      omega
  world hw := ⟨hw.1, hw.2⟩
  history := List.prefix_append _ _
  separate F hF := hF
  fragments := rfl

/-- A fragment comes with a tracker. -/
theorem evolves_ofFragment (fragment : BufferFragment) (w : World α) :
    Evolves (slicesOf [.carrying (.done fragment.id)]) w (slicesOf [.ofFragment fragment]) w where
  wf _ t ht := by
    obtain rfl : t = _ := by simpa [slicesOf] using ht
    exact ⟨Nat.zero_le _, Nat.le_refl _, fun _ ↦ rfl, fun h ↦ (nomatch h),
      fun f h ↦ ⟨rfl, by
        obtain rfl : fragment.id = f := by simpa [Slice.ofFragment, Slice.base] using h
        exact List.mem_singleton_self _⟩, fun _ h ↦ (nomatch h)⟩
  world hw := ⟨hw.1, hw.2⟩
  ledger g _ := by
    simp [slicesOf, Slice.ofFragment, Slice.carrying, Slice.releaseEvents]
  history := List.prefix_rfl
  separate F hF := hF
  fragments := rfl

/-- A tracker passes from the caller to a slice. -/
theorem evolves_addDrainTracker (s : Slice α) (t : DrainTracker) (w : World α) :
    Evolves (slicesOf [s, .carrying t]) w (slicesOf [s.addDrainTracker t]) w where
  wf hwf u hu := by
    obtain rfl : u = _ := by simpa [slicesOf] using hu
    have hs : s.WF := hwf s (by simp [slicesOf])
    exact ⟨hs.data_le, hs.reservable_le, hs.data_eq_zero, hs.null, fun f hf ↦
      ⟨(hs.external f hf).1, List.mem_append_left _ (hs.external f hf).2⟩, hs.owned⟩
  world hw := ⟨hw.1, hw.2⟩
  ledger g _ := by
    simp [slicesOf, Ledger.owed, Slice.carrying, Slice.releaseEvents, Slice.addDrainTracker]
    omega
  history := List.prefix_rfl
  separate F hF := hF
  fragments := rfl

/-- A slice that gets an account is charged to it. -/
theorem evolves_maybeChargeAccount (s : Slice α) (account : Option ℕ) (w : World α) :
    Evolves (slicesOf [s]) w (slicesOf [(s.maybeChargeAccount account w).1])
      (s.maybeChargeAccount account w).2 := by
  rw [Slice.maybeChargeAccount]
  split_ifs with h
  · exact .refl _ _
  · push Not at h
    obtain ⟨a, rfl⟩ := Option.ne_none_iff_exists'.1 h.2.2
    refine ⟨fun hwf u hu ↦ ?_, fun hw ↦ ⟨hw.1, hw.2⟩,
      Ledger.conserves_exchange (fun g hg ↦ ?_) w.events, List.prefix_append _ _, fun F hF ↦ hF,
        rfl⟩
    · obtain rfl : u = _ := by simpa [slicesOf] using hu
      have hs : s.WF := hwf s (by simp [slicesOf])
      exact ⟨hs.data_le, hs.reservable_le, hs.data_eq_zero, hs.null, hs.external, hs.owned⟩
    · have := hg a s.capacity
      simp [slicesOf, Slice.releaseEvents, Slice.chargeEvents, h.1]
      omega

/-- A slice that keeps its bytes and settles what it owes. -/
theorem evolves_callAndClear {s : Slice α} (hs : s.isMutable = true) (w : World α) :
    Evolves (slicesOf [s]) w (slicesOf [(s.callAndClearDrainTrackersAndCharges w).1])
      (s.callAndClearDrainTrackersAndCharges w).2 where
  wf hwf u hu := by
    obtain rfl : u = _ := by simpa [slicesOf] using hu
    have hsWF : s.WF := hwf s (by simp [slicesOf])
    obtain ⟨st, hst⟩ := Slice.isMutable_iff.1 hs
    refine ⟨hsWF.data_le, hsWF.reservable_le, hsWF.data_eq_zero, hsWF.null, fun f hf ↦ ?_,
      hsWF.owned⟩
    have := Slice.base_eq_fragment_iff.1 hf
    simp [Slice.callAndClearDrainTrackersAndCharges, hst] at this
  ledger := by
    refine Ledger.conserves_exchange (fun g _ ↦ ?_) w.events
    simp [slicesOf, Slice.callAndClearDrainTrackersAndCharges, Slice.releaseEvents]
  world hw := ⟨hw.1, hw.2⟩
  history := List.prefix_append _ _
  separate F hF := hF
  fragments := rfl

/-- Only slices that own their storage hand their trackers over. -/
theorem evolves_transferDrainTrackersTo {s : Slice α} (hs : s.isMutable = true) (t : Slice α)
    (w : World α) :
    Evolves (slicesOf [t, s]) w
      (slicesOf [(s.transferDrainTrackersTo t).2, (s.transferDrainTrackersTo t).1]) w where
  wf hwf u hu := by
    have hsWF : s.WF := hwf s (by simp [slicesOf])
    have htWF : t.WF := hwf t (by simp [slicesOf])
    obtain rfl | rfl : u = _ ∨ u = _ := by simpa [slicesOf] using hu
    · exact ⟨htWF.data_le, htWF.reservable_le, htWF.data_eq_zero, htWF.null, fun f hf ↦
        ⟨(htWF.external f hf).1, List.mem_append_left _ (htWF.external f hf).2⟩, htWF.owned⟩
    · obtain ⟨st, hst⟩ := Slice.isMutable_iff.1 hs
      refine ⟨hsWF.data_le, hsWF.reservable_le, hsWF.data_eq_zero, hsWF.null, fun f hf ↦ ?_,
      hsWF.owned⟩
      have := Slice.base_eq_fragment_iff.1 hf
      simp [Slice.transferDrainTrackersTo, hst] at this
  ledger g _ := by
    simp [slicesOf, Ledger.owed, Slice.releaseEvents, Slice.transferDrainTrackersTo]
    omega
  world hw := ⟨hw.1, hw.2⟩
  history := List.prefix_rfl
  separate F hF := hF
  fragments := rfl

end TcpServer.Buffer
