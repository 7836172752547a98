import TcpServer.Buffer.Effects

/-!
# Slices that leave a buffer

The second half of what the operations do to the slices: draining, extraction, `linearize` and the
moves between two buffers.

A drain of `n` bytes removes the slices `popped n l` and leaves `left n l`. Both are functions of
the list, and they count the zero byte slices at the cut as the source does: those are removed as
well.

The operations on two buffers take the slices of one of them one by one. Each has an induction rule
of its own (`move_induction`, `moveLength_induction`, `prependInstance_induction`): what every
single transfer preserves, the call preserves. A transfer is described by a record of what it does
to both buffers (`MovesFront`, `MovesPart`, `DropsFront`, `MovesBack`), and later modules prove one
lemma for each record.
-/

namespace TcpServer.Buffer

variable {α : Type*}

/-- The slices that a drain of `n` bytes removes. -/
def popped : ℕ → List (Slice α) → List (Slice α)
  | _, [] => []
  | n, s :: l => if s.dataSize ≤ n then s :: popped (n - s.dataSize) l else []

/-- The slices that it leaves, the first of them drained in part. -/
def left : ℕ → List (Slice α) → List (Slice α)
  | _, [] => []
  | n, s :: l =>
    if s.dataSize ≤ n then left (n - s.dataSize) l
    else if n = 0 then s :: l
    else s.drain n :: l

/-- The calls of the slices that are released. -/
def releases (l : List (Slice α)) : List Event := l.flatMap Slice.releaseEvents

@[simp] theorem releases_nil : releases ([] : List (Slice α)) = [] := rfl

@[simp] theorem releases_cons (s : Slice α) (l : List (Slice α)) :
    releases (s :: l) = s.releaseEvents ++ releases l := rfl

/-- What a drain removes is released, from the front. -/
theorem evolves_drain (n : ℕ) {l : List (Slice α)} (hl : ∀ s ∈ l, s.WF) (w : World α) :
    Evolves (slicesOf l) w (slicesOf (left n l)) (w.log (releases (popped n l))) := by
  induction l generalizing n w with
  | nil =>
    rw [popped, releases_nil, World.log_nil]
    exact .refl _ _
  | cons s l ih =>
    have hs := hl s List.mem_cons_self
    rw [popped, left]
    split_ifs with hle h0
    · have hrelease := (evolves_release s w).frame_right (slicesOf l)
      rw [← slicesOf_cons, zero_add] at hrelease
      have hrest := ih (n - s.dataSize) (fun t ht ↦ hl t (List.mem_cons_of_mem s ht))
        (w.log s.releaseEvents)
      rw [World.log_log] at hrest
      exact hrelease.trans hrest
    · rw [releases_nil, World.log_nil]
      exact .refl _ _
    · rw [releases_nil, World.log_nil]
      obtain ⟨hwf, hsame, -⟩ := hs.drain_spec (by omega : n < s.dataSize)
      exact (evolves_same hsame hwf w).cons l

/-- A drain drops bytes. -/
theorem contentOf_left (n : ℕ) {l : List (Slice α)} (hl : ∀ s ∈ l, s.WF) (w : World α) :
    contentOf w (left n l) = (contentOf w l).drop n := by
  induction l generalizing n with
  | nil => simp [left]
  | cons s l ih =>
    have hs := hl s List.mem_cons_self
    have hlen := hs.length_bytes w
    rw [left]
    split_ifs with hle h0
    · have hnone : (s.bytes w).drop n = [] := List.drop_eq_nil_of_le (by omega)
      rw [ih _ fun t ht ↦ hl t (List.mem_cons_of_mem s ht), contentOf_cons, List.drop_append, hlen,
        hnone, List.nil_append]
    · rw [h0, List.drop_zero]
    · obtain ⟨-, -, -, hbytes⟩ := hs.drain_spec (by omega : n < s.dataSize)
      rw [contentOf_cons, hbytes, contentOf_cons, List.drop_append_of_le_length (by omega)]

/-- A slice that is left in front has data. -/
theorem dataSize_of_left_eq_cons {n : ℕ} {l l' : List (Slice α)} {s : Slice α} (hl : ∀ s ∈ l, s.WF)
    (h : left n l = s :: l') : s.dataSize ≠ 0 := by
  induction l generalizing n with
  | nil => cases h
  | cons t l ih =>
    have ht := hl t List.mem_cons_self
    rw [left] at h
    split_ifs at h with hle h0
    · exact ih (fun u hu ↦ hl u (List.mem_cons_of_mem t hu)) h
    · obtain ⟨rfl, -⟩ := List.cons.inj h
      omega
    · obtain ⟨rfl, -⟩ := List.cons.inj h
      obtain ⟨-, -, hsize, -⟩ := ht.drain_spec (by omega : n < t.dataSize)
      omega

theorem left_zero_of_ne_zero {s : Slice α} (h : s.dataSize ≠ 0) (l : List (Slice α)) :
    left 0 (s :: l) = s :: l ∧ popped 0 (s :: l) = [] := by
  rw [left, popped, if_neg (by omega), if_pos rfl, if_neg (by omega)]
  exact ⟨rfl, rfl⟩

theorem sub_ofNat_sub_ofNat (x : UInt64) (m n : ℕ) :
    x - .ofNat m - .ofNat n = x - .ofNat (m + n) := by
  rw [UInt64.ofNat_add]
  grind

namespace OwnedImpl

variable {b b' : OwnedImpl α} {w w' : World α}

/-- The loop that removes slices without data is a drain of no bytes. -/
theorem popEmptyFront_spec {fuel : ℕ} {q : SliceDeque α} (hfuel : q.toList.length ≤ fuel)
    (w : World α) :
    (popEmptyFront fuel q w).1.toList = left 0 q.toList ∧
      (popEmptyFront fuel q w).2 = w.log (releases (popped 0 q.toList)) := by
  induction fuel generalizing q w with
  | zero =>
    have hnil : q.toList = [] := List.length_eq_zero_iff.1 (by omega)
    rw [popEmptyFront, hnil]
    exact ⟨rfl, (World.log_nil w).symm⟩
  | succ fuel ih =>
    rw [popEmptyFront]
    cases hl : q.toList with
    | nil =>
      rw [if_neg (by simp [SliceDeque.isEmpty_iff.2 hl]), hl]
      exact ⟨rfl, (World.log_nil w).symm⟩
    | cons s l =>
      have hne : ¬q.isEmpty = true := by simp [SliceDeque.isEmpty_iff, hl]
      rw [SliceDeque.front_of_cons hl]
      rcases eq_or_ne s.dataSize 0 with h0 | h0
      · obtain ⟨hpop, hlog⟩ := SliceDeque.popFront_of_cons hl w
        obtain ⟨hrest, hrest'⟩ := ih (q := (q.popFront w).1) (by
          rw [hpop]
          rw [hl, List.length_cons] at hfuel
          omega) (q.popFront w).2
        rw [if_pos ⟨hne, h0⟩, left, popped, if_pos (by omega), if_pos (by omega), Nat.zero_sub]
        rw [hpop] at hrest hrest'
        refine ⟨hrest, hrest'.trans ?_⟩
        rw [hlog, World.log_log, releases_cons]
      · rw [if_neg (by simp [h0])]
        obtain ⟨hleft, hpopped⟩ := left_zero_of_ne_zero h0 l
        rw [hleft, hpopped]
        exact ⟨hl, (World.log_nil w).symm⟩

/-- After `drainLoop` it remains to remove the zero byte slices in front. -/
theorem drainLoop_spec {fuel n : ℕ} (hb : b.WF) (hfuel : b.slices.toList.length ≤ fuel)
    (w : World α) :
    left 0 (drainLoop fuel n b w).1.slices.toList = left n b.slices.toList ∧
      (drainLoop fuel n b w).2.log
          (releases (popped 0 (drainLoop fuel n b w).1.slices.toList)) =
        w.log (releases (popped n b.slices.toList)) ∧
      (drainLoop fuel n b w).1.account = b.account ∧
      (drainLoop fuel n b w).1.length =
        b.length - .ofNat (min n (dataSizes b.slices.toList)) := by
  induction fuel generalizing n b w with
  | zero =>
    have hnil : b.slices.toList = [] := List.length_eq_zero_iff.1 (by omega)
    rw [drainLoop, hnil]
    exact ⟨rfl, rfl, rfl, by simp⟩
  | succ fuel ih =>
    rw [drainLoop]
    cases hl : b.slices.toList with
    | nil =>
      rw [if_pos (.inr (SliceDeque.isEmpty_iff.2 hl)), hl]
      exact ⟨rfl, rfl, rfl, by simp⟩
    | cons s l =>
      have hs : s.WF := hb s (by simp [hl])
      rcases eq_or_ne n 0 with rfl | hn
      · rw [if_pos (.inl rfl), hl]
        exact ⟨rfl, rfl, rfl, by simp⟩
      · have hne : ¬b.slices.isEmpty = true := by simp [SliceDeque.isEmpty_iff, hl]
        rw [if_neg (by simp [hn, hne]), SliceDeque.front_of_cons hl]
        dsimp only
        split_ifs with hle
        -- the slice goes as a whole, and the loop goes on with what is left of `n`
        · obtain ⟨hpop, hlog⟩ := SliceDeque.popFront_of_cons hl w
          have hb' : ∀ t ∈ (b.slices.popFront w).1.toList, t.WF := fun t ht ↦
            hb t (by rw [hl]; rw [hpop] at ht; exact List.mem_cons_of_mem s ht)
          obtain ⟨h₁, h₂, h₃, h₄⟩ := ih (n := n - s.dataSize)
            (b := { b with slices := (b.slices.popFront w).1,
                           length := b.length - .ofNat s.dataSize }) hb' (by
              rw [hl, List.length_cons] at hfuel
              dsimp only
              rw [hpop]
              omega) (b.slices.popFront w).2
          dsimp only at h₁ h₂ h₃ h₄
          rw [hpop] at h₁ h₂ h₄
          rw [left, popped, if_pos hle, if_pos hle, dataSizes_cons]
          refine ⟨h₁, ?_, h₃, ?_⟩
          · rw [h₂, hlog, World.log_log, releases_cons]
          · rw [h₄, sub_ofNat_sub_ofNat]
            congr 2
            omega
        -- the slice loses its first `n` bytes and keeps at least one, which ends the loop
        · obtain ⟨-, -, hsize, -⟩ := hs.drain_spec (by omega : n < s.dataSize)
          have hset := SliceDeque.setFront_of_cons hl (s.drain n)
          obtain ⟨hleft, hpopped⟩ := left_zero_of_ne_zero (s := s.drain n) (by omega) l
          dsimp only
          rw [hset, hleft, hpopped, left, popped, if_neg hle, if_neg hle, if_neg hn, dataSizes_cons]
          refine ⟨rfl, rfl, rfl, ?_⟩
          congr 2
          omega

/-- What a drain does. -/
theorem drainImpl_spec (hb : b.WF) (n : ℕ) (w : World α) :
    (b.drainImpl n w).1.slices.toList = left n b.slices.toList ∧
      (b.drainImpl n w).2 = w.log (releases (popped n b.slices.toList)) ∧
      (b.drainImpl n w).1.account = b.account ∧
      (b.drainImpl n w).1.length = b.length - .ofNat (min n (dataSizes b.slices.toList)) := by
  obtain ⟨h₁, h₂, h₃, h₄⟩ :=
    drainLoop_spec (n := n) hb (Nat.le_of_eq b.slices.length_toList) w
  obtain ⟨h₅, h₆⟩ := popEmptyFront_spec
    (Nat.le_of_eq (drainLoop b.slices.size n b w).1.slices.length_toList)
    (drainLoop b.slices.size n b w).2
  exact ⟨h₅.trans h₁, h₆.trans h₂, h₃, h₄⟩

/-- A drain is an evolution of the slices. -/
theorem drainImpl_evolves (hb : b.WF) (n : ℕ) (w : World α) :
    Evolves (slicesOf b.slices.toList) w (slicesOf (b.drainImpl n w).1.slices.toList)
      (b.drainImpl n w).2 := by
  obtain ⟨hl, hw, -⟩ := drainImpl_spec hb n w
  rw [hl, hw]
  exact evolves_drain n hb w

/-! ### Extraction

The first slice with data goes to the caller, and those without data in front of it are removed.
-/

/-- `extractMutableFrontSlice` removes the first slice with data. The caller gets that slice,
without its trackers and its account, or a copy of its data. -/
theorem extractMutableFrontSlice_spec {e : Slice α} (hb : b.WF)
    (h : b.extractMutableFrontSlice w = some (e, b', w')) :
    ∃ s l w₁, left 0 b.slices.toList = s :: l ∧ b'.slices.toList = l ∧ b'.account = b.account ∧
      b'.length = b.length - .ofNat s.dataSize ∧
      w₁ = w.log (releases (popped 0 b.slices.toList)) ∧
      ((s.isMutable = true ∧ (e, w') = s.callAndClearDrainTrackersAndCharges w₁) ∨
        s.isMutable = false ∧
          (Slice.create s.dataSize none w₁).1.Appended
            ((s.bytes w).take (min s.dataSize (sliceSize s.dataSize))) e ∧
          w' = (Slice.create s.dataSize none w₁).2.log s.releaseEvents) := by
  rw [extractMutableFrontSlice] at h
  split_ifs at h with h0
  obtain ⟨hpop, hlog⟩ := popEmptyFront_spec (Nat.le_of_eq b.slices.length_toList) w
  generalize popEmptyFront b.slices.size b.slices w = r at h hpop hlog
  obtain ⟨q, w₁⟩ := r
  dsimp only at h hpop hlog
  split_ifs at h with hempty hmut
  all_goals
    obtain ⟨s, l, hl⟩ : ∃ s l, q.toList = s :: l :=
      List.exists_cons_of_ne_nil fun hnil ↦ hempty (SliceDeque.isEmpty_iff.2 hnil)
    have hmoved := SliceDeque.setFront_of_cons hl .empty
    obtain ⟨hpop', hlog'⟩ := SliceDeque.popFront_of_cons hmoved w₁
    rw [Slice.releaseEvents_empty, World.log_nil] at hlog'
    have hbytes : s.bytes w₁ = s.bytes w := by rw [hlog, Slice.bytes_log]
    rw [SliceDeque.front_of_cons hl] at h hmut
    rw [hlog'] at h
  -- the slice is over a fragment: its data is copied to a new one
  · have hs : s.WF := (evolves_drain 0 hb w).wf hb s (by simp [slicesOf, ← hpop, hl])
    have hfresh := Slice.fresh_create s.dataSize none w₁
    obtain ⟨e', happend, he⟩ := hfresh.wf.append_spec (s.bytes w₁)
      (Slice.create s.dataSize none w₁).2
    rw [Slice.reservableSize, hfresh.capacity, hfresh.reservable, Nat.sub_zero,
      hs.length_bytes] at happend he
    have hcongr : s.bytes (Slice.create s.dataSize none w₁).2 = s.bytes w₁ := Slice.bytes_congr rfl
    rw [hcongr, happend] at h
    simp only [Option.some.injEq, Prod.mk.injEq] at h
    obtain ⟨rfl, rfl, rfl⟩ := h
    exact ⟨s, l, w₁, hpop ▸ hl, hpop', rfl, rfl, hlog, .inr ⟨hmut, hbytes ▸ he, rfl⟩⟩
  · simp only [Option.some.injEq, Prod.mk.injEq] at h
    obtain ⟨rfl, rfl, rfl⟩ := h
    exact ⟨s, l, w₁, hpop ▸ hl, hpop', rfl, rfl, hlog, .inl ⟨by simpa using hmut, rfl⟩⟩

/-- The extracted slice is among the slices afterwards. -/
theorem extractMutableFrontSlice_evolves {e : Slice α} (hb : b.WF)
    (h : b.extractMutableFrontSlice w = some (e, b', w')) :
    Evolves (slicesOf b.slices.toList) w (slicesOf (e :: b'.slices.toList)) w' := by
  obtain ⟨s, l, w₁, hleft, rfl, -, -, rfl, hcase⟩ := extractMutableFrontSlice_spec hb h
  have hdrain := evolves_drain 0 hb w
  rw [hleft] at hdrain
  refine hdrain.trans ?_
  rcases hcase with ⟨hmut, heq⟩ | ⟨-, he, rfl⟩
  · obtain ⟨rfl, rfl⟩ := Prod.mk.inj heq
    exact (evolves_callAndClear hmut _).cons _
  · -- The copy is made before the destructor of the immutable slice runs.
    have hcopy := (evolves_create s.dataSize none _).trans (evolves_same he.toSame he.wf _)
    have hrelease := evolves_release s (Slice.create s.dataSize none
      (w.log (releases (popped 0 b.slices.toList)))).2
    have := ((hcopy.frame (slicesOf [s])).trans (hrelease.frame_right _)).frame_right
      (slicesOf b'.slices.toList)
    rw [add_zero, zero_add, ← slicesOf_cons, ← slicesOf_cons] at this
    exact this

/-! ### `copyOut` and `linearize`

`copyOut` skips bytes and then reads, across slices. `linearize` copies to a new slice what is not
yet in one, drains the old bytes and puts the slice in front.
-/

/-- The loop reads a part of the content. -/
theorem copyOutLoop_eq (w : World α) {l : List (Slice α)} (hl : ∀ s ∈ l, s.WF) (start size : ℕ) :
    copyOutLoop w l start size = ((contentOf w l).drop start).take size := by
  induction l generalizing start size with
  | nil => simp [copyOutLoop]
  | cons s l ih =>
    have hl' := fun t ht ↦ hl t (List.mem_cons_of_mem s ht)
    have hlen := (hl s List.mem_cons_self).length_bytes w
    rw [copyOutLoop, contentOf_cons]
    split_ifs with h0 hskip
    · rw [h0, List.take_zero]
    · have hnone : (s.bytes w).drop start = [] := List.drop_eq_nil_of_le (by omega)
      rw [ih hl', List.drop_append, hlen, hnone, List.nil_append]
    · dsimp only
      rw [s.load_data_add w (by omega), ih hl', List.drop_zero,
        List.drop_append_of_le_length (by omega), List.take_append, List.length_drop, hlen]
      congr 1
      · have hall : ((s.bytes w).drop start).take (s.dataSize - start) = (s.bytes w).drop start :=
          List.take_of_length_le (by rw [List.length_drop, hlen])
        rw [← List.take_take, hall]
      · congr 1
        omega

theorem copyOut_eq (hb : b.WF) (start size : ℕ) (w : World α) :
    b.copyOut start size w = ((contentOf w b.slices.toList).drop start).take size :=
  copyOutLoop_eq w hb start size

/-- The slice that `linearize` copies into. -/
theorem exists_linearized {n : ℕ} (hn : n ≤ maxSliceSize) (hpos : 0 < n) (account : Option ℕ)
    (w : World α) (c : List α) :
    ∃ s d, (((Slice.create n account w).1.store (Slice.create n account w).2 0 c).1.commit true
        ((Slice.create n account w).1.reserve n)).1 = s ∧
      ((Slice.create n account w).1.store (Slice.create n account w).2 0 c).2 =
        (Slice.create n account w).2 ∧
      (Slice.create n account w).1.Appended d s ∧ d.length = n ∧ (c.length = n → d = c) := by
  have hsize := le_sliceSize hn
  have hfresh := Slice.fresh_create n account w
  refine ⟨_, Memory.read (Memory.write (w.fresh w.next) 0 c) 0 n, rfl, rfl, ?_,
    Memory.length_read _ _ _, ?_⟩
  · have := hfresh.wf.appended { id := w.next, size := sliceSize n,
                                 mem := Memory.write (w.fresh w.next) 0 c } rfl rfl
      rfl
      (d := Memory.read (Memory.write (w.fresh w.next) 0 c) 0 n)
      (by rw [Memory.length_read, Slice.reservableSize, hfresh.capacity, hfresh.reservable]; omega)
      (fun m hm ↦ by
        have : m = 0 := by
          rw [hfresh.reservable] at hm
          omega
        rw [this]
        rfl)
      (by rw [Memory.length_read, hfresh.reservable])
    rw [Memory.length_read] at this
    have hcommit : (((Slice.create n account w).1.store (Slice.create n account w).2 0 c).1.commit
      true
        ((Slice.create n account w).1.reserve n)).1 =
        { (Slice.create n account w).1 with
          backing := .owned { id := w.next, size := sliceSize n,
                              mem := Memory.write (w.fresh w.next) 0 c }
          reservable := (Slice.create n account w).1.reservable + n } := by
      have hres : (Slice.create n account w).1.reserve n = ⟨some (.storage w.next, 0), n⟩ := by
        rw [Slice.reserve, if_neg (by omega), hfresh.capacity, hfresh.reservable,
          if_neg (by omega), Nat.sub_zero, Nat.min_eq_left hsize]
        rfl
      rw [hres, Slice.commit, if_neg]
      · rfl
      · simp [Slice.create, Slice.store, Slice.base, World.allocate]
        omega
    rwa [hcommit]
  · rintro rfl
    exact Memory.read_write_self _ _ _

/-- `linearize` leaves the buffer alone if the first slice has the bytes. Otherwise it copies them
to a new slice, drains them, and puts the new slice in front. -/
theorem linearize_spec {n : ℕ} {p : Option (Block × ℕ)} (hb : b.WF) (hn : n ≤ maxSliceSize)
    (h : b.linearize n w = some (p, b', w')) :
    n ≤ b.length.toNat ∧
      ((b' = b ∧ w' = w ∧ ∀ s l, b.slices.toList = s :: l → n ≤ s.dataSize) ∨
        ∃ s l d new, b.slices.toList = s :: l ∧ s.dataSize < n ∧
          (Slice.create n b.account w).1.Appended d new ∧ d.length = n ∧
          (n ≤ dataSizes b.slices.toList → d = (contentOf w b.slices.toList).take n) ∧
          b'.slices.toList = new :: left n b.slices.toList ∧
          w' = (Slice.create n b.account w).2.log (releases (popped n b.slices.toList)) ∧
          b'.account = b.account ∧
          b'.length = b.length - .ofNat (min n (dataSizes b.slices.toList)) + .ofNat n) := by
  have hlen : n ≤ b.length.toNat := by
    by_contra hgt
    rw [linearize, if_pos (by omega)] at h
    cases h
  refine ⟨hlen, ?_⟩
  rw [linearize, if_neg (by omega)] at h
  cases hl : b.slices.toList with
  | nil =>
    rw [if_pos (SliceDeque.isEmpty_iff.2 hl)] at h
    obtain ⟨-, rfl, rfl⟩ : _ ∧ b = b' ∧ w = w' := by simpa using h
    exact .inl ⟨rfl, rfl, fun s l hl' ↦ (nomatch hl')⟩
  | cons s l =>
    have hne : ¬b.slices.isEmpty = true := by simp [SliceDeque.isEmpty_iff, hl]
    rw [if_neg hne] at h
    dsimp only at h
    rw [SliceDeque.get_zero_of_cons hl] at h
    -- only the first slice is asked whether it has all the bytes
    by_cases hlt : s.dataSize < n
    · refine .inr ?_
      simp only [if_pos hlt] at h
      obtain ⟨new, d, hnew, hworld, happ, hdlen, hd⟩ :=
        exists_linearized hn (by omega) b.account w (b.copyOut 0 n (Slice.create n b.account w).2)
      have hreservable := (Slice.fresh_create n b.account w).reservable
      rw [hreservable, hworld, hnew] at h
      obtain ⟨hdl, hdw, hda, hdlength⟩ := drainImpl_spec hb n (Slice.create n b.account w).2
      simp only [Option.some.injEq, Prod.mk.injEq] at h
      obtain ⟨-, rfl, rfl⟩ := h
      rw [hl] at hdl hdw hdlength
      refine ⟨s, l, d, new, rfl, hlt, happ, hdlen, fun hle ↦ ?_, ?_, ?_, hda, ?_⟩
      · rw [copyOut_eq hb, List.drop_zero] at hd
        have hcontent : contentOf (Slice.create n b.account w).2 b.slices.toList =
            contentOf w b.slices.toList := contentOf_congr rfl _
        rw [hcontent] at hd
        rw [← hl] at hle ⊢
        refine hd ?_
        rw [List.length_take, length_contentOf w hb]
        omega
      · rw [SliceDeque.toList_emplaceFront, hdl]
      · rw [SliceDeque.emplaceFront_snd, hdw]
      · rw [hdlength]
    · simp only [if_neg hlt] at h
      obtain ⟨-, rfl, rfl⟩ : _ ∧ b = b' ∧ w = w' := by simpa using h
      refine .inl ⟨rfl, rfl, fun t l' hl' ↦ ?_⟩
      obtain ⟨rfl, -⟩ := List.cons.inj hl'
      omega

/-- The slices evolve under `linearize`. -/
theorem linearize_evolves {n : ℕ} {p : Option (Block × ℕ)} (hb : b.WF) (hn : n ≤ maxSliceSize)
    (h : b.linearize n w = some (p, b', w')) :
    Evolves (slicesOf b.slices.toList) w (slicesOf b'.slices.toList) w' := by
  obtain ⟨-, ⟨rfl, rfl, -⟩ | ⟨s, l, d, new, -, -, happ, -, -, hl', rfl, -⟩⟩ :=
    linearize_spec hb hn h
  · exact .refl _ _
  · have hnew := (evolves_create n b.account w).trans (evolves_same happ.toSame happ.wf _)
    have hdrain := evolves_drain n hb (Slice.create n b.account w).2
    rw [hl', slicesOf_cons]
    simpa using (hnew.frame_right _).trans (hdrain.frame (slicesOf [new]))

end OwnedImpl

/-! ### Moves

A slice that is moved whole is either appended, or coalesced: its bytes are copied into the last
slice of the target if they are few, its trackers go there as well, and it is released.
-/

/-- A slice `s` that is moved whole behind a list of slices: its bytes and its trackers go to the
last slice and it is released without trackers, or it becomes the last slice itself. -/
inductive Takes (account : Option ℕ) (s : Slice α) :
    List (Slice α) → World α → List (Slice α) → World α → Prop
  | coalesce (l : List (Slice α)) {t t' : Slice α} (w : World α) :
    s.isMutable = true → t.Appended (s.bytes w) t' →
      Takes account s (l ++ [t]) w (l ++ [(s.transferDrainTrackersTo t').2])
        (w.log (s.transferDrainTrackersTo t').1.releaseEvents)
  | own (l : List (Slice α)) (w : World α) :
    Takes account s l w (l ++ [(s.maybeChargeAccount account w).1])
      (s.maybeChargeAccount account w).2

theorem Slice.bytes_maybeChargeAccount (s : Slice α) (account : Option ℕ) (w v : World α) :
    (s.maybeChargeAccount account w).1.bytes v = s.bytes v := by
  rw [Slice.maybeChargeAccount]
  split_ifs <;> rfl

theorem Slice.dataSize_maybeChargeAccount (s : Slice α) (account : Option ℕ) (w : World α) :
    (s.maybeChargeAccount account w).1.dataSize = s.dataSize := by
  rw [Slice.maybeChargeAccount]
  split_ifs <;> rfl

namespace Takes

variable {account : Option ℕ} {s : Slice α} {l l' : List (Slice α)} {w w' : World α}

/-- The slices of both buffers evolve. -/
theorem evolves (h : Takes account s l w l' w') :
    Evolves (slicesOf (l ++ [s])) w (slicesOf l') w' := by
  cases h with
  | @coalesce l t t' _ hmut happ =>
    have hfill := (evolves_same happ.toSame happ.wf w).frame_right (slicesOf [s])
    have htransfer := evolves_transferDrainTrackersTo hmut t' w
    have hrelease := (evolves_release (s.transferDrainTrackersTo t').1 w).frame
      (slicesOf [(s.transferDrainTrackersTo t').2])
    rw [← slicesOf_append] at hfill
    rw [add_zero, ← slicesOf_append] at hrelease
    have := ((hfill.trans htransfer).trans hrelease).frame (slicesOf l)
    rwa [← slicesOf_append, ← slicesOf_append, ← List.append_assoc] at this
  | own => exact (evolves_maybeChargeAccount s account w).concat l

/-- The bytes of the slice come behind the others. -/
theorem contentOf (h : Takes account s l w l' w') (v : World α) :
    contentOf v l' = Buffer.contentOf v l ++ s.bytes v := by
  cases h with
  | @coalesce l t t' _ hmut happ =>
    have hs : s.bytes w = s.bytes v := Slice.load_of_isMutable hmut _ _ _ _
    have ht : (s.transferDrainTrackersTo t').2.bytes v = t'.bytes v := rfl
    simp [ht, happ.bytes, hs]
  | own => simp [Slice.bytes_maybeChargeAccount]

theorem dataSizes (h : Takes account s l w l' w') (hs : s.WF) :
    dataSizes l' = Buffer.dataSizes l + s.dataSize := by
  cases h with
  | @coalesce l t t' _ hmut happ =>
    have ht : (s.transferDrainTrackersTo t').2.dataSize = t'.dataSize := rfl
    simp [ht, happ.dataSize, hs.length_bytes]
    omega
  | own => simp [Slice.dataSize_maybeChargeAccount]

end Takes

/-- What moving the front slice `s` of a buffer to another does to the two. -/
structure MovesFront (s : Slice α) (b other : OwnedImpl α) (w : World α) (b' other' : OwnedImpl α)
    (w' : World α) : Prop where
  /-- The account of the target stays. -/
  account : b'.account = b.account
  /-- Its length counts the slice. -/
  length : b'.length = b.length + .ofNat s.dataSize
  /-- It takes the slice. -/
  slices : Takes b.account s b.slices.toList w b'.slices.toList w'
  /-- The account of the other buffer stays. -/
  otherAccount : other'.account = other.account
  /-- Its length does not count the slice any more. -/
  otherLength : other'.length = other.length - .ofNat s.dataSize
  /-- It has the other slices. -/
  otherSlices : other.slices.toList = s :: other'.slices.toList

namespace OwnedImpl

variable {b b' other other' : OwnedImpl α} {w w' : World α}

/-- A front slice can always be moved. -/
theorem exists_moveFront {s : Slice α} {l : List (Slice α)} (hb : b.WF) (ho : other.WF)
    (hl : other.slices.toList = s :: l) (w : World α) :
    ∃ b' other' w', b.moveFront other w = some (b', other', w') ∧
      MovesFront s b other w b' other' w' := by
  have hs : s.WF := ho s (by simp [hl])
  have hpop (t : Slice α) (v : World α) :
      ((other.slices.setFront t).popFront v).1.toList = l ∧
        ((other.slices.setFront t).popFront v).2 = v.log t.releaseEvents :=
    SliceDeque.popFront_of_cons (SliceDeque.setFront_of_cons hl t) v
  rw [moveFront, coalesceOrAddSlice]
  rw [SliceDeque.front_of_cons hl]
  dsimp only
  split_ifs with hco
  -- the bytes are copied behind the last slice, and `s` is released
  · obtain ⟨hcan, hne, -, hroom⟩ := hco
    obtain ⟨l₁, t, hl₁⟩ := (List.eq_nil_or_concat' b.slices.toList).resolve_left
      fun hnil ↦ hne (SliceDeque.isEmpty_iff.2 hnil)
    rw [SliceDeque.back_of_concat hl₁] at hroom
    obtain ⟨b₁, t', hadd, happ, hl₁', hacc, hlen⟩ :=
      addImpl_of_fits hb hl₁ (d := s.bytes w) (by rw [hs.length_bytes]; exact hroom) w
    rw [hadd, Option.map_some, Option.map_some]
    dsimp only
    rw [SliceDeque.back_of_concat hl₁']
    refine ⟨_, _, _, rfl, hacc, ?_, ?_, rfl, rfl, ?_⟩
    · exact hlen.trans (by rw [hs.length_bytes])
    · dsimp only
      rw [(hpop _ w).2, hl₁, SliceDeque.setBack_of_concat hl₁']
      exact .coalesce l₁ w hcan happ
    · dsimp only
      rw [hl, (hpop _ w).1]
  -- `s` itself is taken, and what is removed in its place is an empty slice
  · refine ⟨_, _, _, rfl, rfl, rfl, ?_, rfl, rfl, ?_⟩
    · dsimp only
      rw [(hpop _ _).2, Slice.releaseEvents_empty, World.log_nil, SliceDeque.toList_emplaceBack,
        SliceDeque.emplaceBack_snd]
      exact .own _ w
    · dsimp only
      rw [hl, (hpop _ _).1]

end OwnedImpl

namespace MovesFront

variable {s : Slice α} {b b' other other' : OwnedImpl α} {w w' : World α}

/-- The slices of both buffers evolve, taken together. -/
theorem evolves (h : MovesFront s b other w b' other' w') :
    Evolves (slicesOf b.slices.toList + slicesOf other.slices.toList) w
      (slicesOf b'.slices.toList + slicesOf other'.slices.toList) w' := by
  have := h.slices.evolves.frame_right (slicesOf other'.slices.toList)
  rwa [slicesOf_append, add_assoc, ← slicesOf_cons, ← h.otherSlices] at this

theorem wf (h : MovesFront s b other w b' other' w') (hb : b.WF) (ho : other.WF) :
    b'.WF ∧ other'.WF := by
  refine ⟨fun t ht ↦ h.slices.evolves.wf (fun u hu ↦ ?_) t ht, fun t ht ↦ ho t ?_⟩
  · rcases List.mem_append.1 (Multiset.mem_coe.1 hu) with hu | hu
    · exact hb u hu
    · obtain rfl := List.mem_singleton.1 hu
      exact ho u (by simp [h.otherSlices])
  · rw [h.otherSlices]
    exact List.mem_cons_of_mem s ht

end MovesFront

namespace OwnedImpl

variable {b b' other other' : OwnedImpl α} {w w' : World α}

/-- `move` takes the slices one by one, so what one of them preserves it preserves. -/
theorem move_induction {P : OwnedImpl α → OwnedImpl α → World α → Prop}
    (hstep : ∀ s b other w b' other' w', b.WF → other.WF → MovesFront s b other w b' other' w' →
      P b other w → P b' other' w')
    (hb : b.WF) (ho : other.WF) (h : b.move other w = some (b', other', w')) (hP : P b other w) :
    P b' other' w' ∧ other'.slices.toList = [] := by
  -- every turn removes a slice, so as many turns as there are slices are enough
  suffices hloop : ∀ fuel (b other : OwnedImpl α) (w : World α), b.WF → other.WF →
      other.slices.toList.length ≤ fuel → moveLoop fuel b other w = some (b', other', w') →
      P b other w → P b' other' w' ∧ other'.slices.toList = [] from
    hloop _ b other w hb ho (Nat.le_of_eq other.slices.length_toList) h hP
  intro fuel
  induction fuel with
  | zero =>
    intro b other w _ _ hfuel h hP
    simp only [moveLoop, Option.some.injEq, Prod.mk.injEq] at h
    obtain ⟨rfl, rfl, rfl⟩ := h
    exact ⟨hP, List.length_eq_zero_iff.1 (by omega)⟩
  | succ fuel ih =>
    intro b other w hb ho hfuel h hP
    rw [moveLoop] at h
    cases hl : other.slices.toList with
    | nil =>
      rw [if_pos (SliceDeque.isEmpty_iff.2 hl)] at h
      simp only [Option.some.injEq, Prod.mk.injEq] at h
      obtain ⟨rfl, rfl, rfl⟩ := h
      exact ⟨hP, hl⟩
    | cons s l =>
      rw [if_neg (by simp [SliceDeque.isEmpty_iff, hl])] at h
      obtain ⟨b₁, other₁, w₁, hmove, hmoves⟩ := exists_moveFront hb ho hl w
      rw [hmove, Option.bind_some] at h
      obtain ⟨hb₁, ho₁⟩ := hmoves.wf hb ho
      refine ih b₁ other₁ w₁ hb₁ ho₁ ?_ h (hstep s _ _ _ _ _ _ hb ho hmoves hP)
      rw [hmoves.otherSlices, List.length_cons] at hfuel
      omega

/-- `move` always returns. -/
theorem move_isSome (hb : b.WF) (ho : other.WF) : (b.move other w).isSome := by
  suffices hloop : ∀ fuel (b other : OwnedImpl α) (w : World α), b.WF → other.WF →
      (moveLoop fuel b other w).isSome from hloop _ b other w hb ho
  intro fuel
  induction fuel with
  | zero => exact fun _ _ _ _ _ ↦ rfl
  | succ fuel ih =>
    intro b other w hb ho
    rw [moveLoop]
    cases hl : other.slices.toList with
    | nil =>
      rw [if_pos (SliceDeque.isEmpty_iff.2 hl)]
      rfl
    | cons s l =>
      rw [if_neg (by simp [SliceDeque.isEmpty_iff, hl])]
      obtain ⟨b₁, other₁, w₁, hmove, hmoves⟩ := exists_moveFront hb ho hl w
      obtain ⟨hb₁, ho₁⟩ := hmoves.wf hb ho
      rw [hmove, Option.bind_some]
      exact ih b₁ other₁ w₁ hb₁ ho₁

end OwnedImpl

/-- What copying the first `n` bytes of the front slice `s` does. -/
structure MovesPart (s : Slice α) (n : ℕ) (b other : OwnedImpl α) (w : World α)
    (b' other' : OwnedImpl α) (w' : World α) : Prop where
  /-- Only a part of the slice is moved. -/
  lt : n < s.dataSize
  /-- It is added to the target as a string. -/
  adds : Adds ((s.bytes w).take n) b w b' w'
  /-- The account of the other buffer stays. -/
  otherAccount : other'.account = other.account
  /-- Its length does not count the bytes any more. -/
  otherLength : other'.length = other.length - .ofNat n
  /-- Its first slice is drained. -/
  otherSlices : ∃ l, other.slices.toList = s :: l ∧ other'.slices.toList = s.drain n :: l

/-- What removing the front slice `s`, which has no data, does. -/
structure DropsFront (s : Slice α) (other : OwnedImpl α) (w : World α) (other' : OwnedImpl α)
    (w' : World α) : Prop where
  /-- The slice has no data. -/
  dataSize : s.dataSize = 0
  /-- It is released. -/
  world : w' = w.log s.releaseEvents
  /-- The account stays. -/
  account : other'.account = other.account
  /-- So does the length. -/
  length : other'.length = other.length
  /-- The other slices stay. -/
  slices : other.slices.toList = s :: other'.slices.toList

/-- The slices of both buffers evolve. -/
theorem MovesPart.evolves {s : Slice α} {n : ℕ} {b b' other other' : OwnedImpl α} {w w' : World α}
    (h : MovesPart s n b other w b' other' w') (ho : other.WF) :
    Evolves (slicesOf b.slices.toList + slicesOf other.slices.toList) w
      (slicesOf b'.slices.toList + slicesOf other'.slices.toList) w' := by
  obtain ⟨l, hl, hl'⟩ := h.otherSlices
  obtain ⟨hwf, hsame, -⟩ := (ho s (by simp [hl])).drain_spec h.lt
  rw [hl, hl']
  exact (h.adds.evolves.frame_right _).trans (((evolves_same hsame hwf w').cons l).frame _)

/-- So do those of the one that drops its front. -/
theorem DropsFront.evolves {s : Slice α} {other other' : OwnedImpl α} {w w' : World α}
    (h : DropsFront s other w other' w') :
    Evolves (slicesOf other.slices.toList) w (slicesOf other'.slices.toList) w' := by
  have := (evolves_release s w).frame_right (slicesOf other'.slices.toList)
  rw [zero_add, ← slicesOf_cons, ← h.slices, ← h.world] at this
  exact this

theorem wf_of_evolves {b b' other other' : OwnedImpl α} {w w' : World α}
    (h : Evolves (slicesOf b.slices.toList + slicesOf other.slices.toList) w
      (slicesOf b'.slices.toList + slicesOf other'.slices.toList) w')
    (hb : b.WF) (ho : other.WF) : b'.WF ∧ other'.WF := by
  have hall := h.wf fun s hs ↦ by
    rcases Multiset.mem_add.1 hs with hs | hs
    · exact hb s hs
    · exact ho s hs
  exact ⟨fun s hs ↦ hall s (Multiset.mem_add.2 (.inl hs)),
    fun s hs ↦ hall s (Multiset.mem_add.2 (.inr hs))⟩

namespace OwnedImpl

variable {b b' other other' : OwnedImpl α} {w w' : World α}

/-- `move` of a length: `P n` is kept with `n` bytes still to be moved. -/
theorem moveLength_induction {P : ℕ → OwnedImpl α → OwnedImpl α → World α → Prop}
    (hdrop : ∀ s n b other w other' w', b.WF → other.WF → n ≠ 0 → DropsFront s other w other' w' →
      P n b other w → P n b other' w')
    (hpart : ∀ s n b other w b' other' w', b.WF → other.WF → n ≠ 0 →
      MovesPart s n b other w b' other' w' → P n b other w → P 0 b' other' w')
    (hwhole : ∀ s n b other w b' other' w', b.WF → other.WF → s.dataSize ≠ 0 → s.dataSize ≤ n →
      MovesFront s b other w b' other' w' → P n b other w → P (n - s.dataSize) b' other' w')
    {n : ℕ} (hb : b.WF) (ho : other.WF) (h : b.moveLength other n w = some (b', other', w'))
    (hP : P n b other w) : ∃ m, P m b' other' w' ∧ (m = 0 ∨ other'.slices.toList = []) := by
  suffices hloop : ∀ fuel n (b other : OwnedImpl α) (w : World α), b.WF → other.WF →
      other.slices.toList.length ≤ fuel → moveLengthLoop fuel n b other w = some (b', other', w') →
      P n b other w → ∃ m, P m b' other' w' ∧ (m = 0 ∨ other'.slices.toList = []) from
    hloop _ n b other w hb ho (Nat.le_of_eq other.slices.length_toList) h hP
  intro fuel
  induction fuel with
  | zero =>
    intro n b other w _ _ hfuel h hP
    simp only [moveLengthLoop, Option.some.injEq, Prod.mk.injEq] at h
    obtain ⟨rfl, rfl, rfl⟩ := h
    exact ⟨n, hP, .inr (List.length_eq_zero_iff.1 (by omega))⟩
  | succ fuel ih =>
    intro n b other w hb ho hfuel h hP
    rw [moveLengthLoop] at h
    rcases eq_or_ne n 0 with rfl | hn
    · simp only [true_or, if_true, Option.some.injEq, Prod.mk.injEq] at h
      obtain ⟨rfl, rfl, rfl⟩ := h
      exact ⟨0, hP, .inl rfl⟩
    cases hl : other.slices.toList with
    | nil =>
      rw [if_pos (.inr (SliceDeque.isEmpty_iff.2 hl))] at h
      simp only [Option.some.injEq, Prod.mk.injEq] at h
      obtain ⟨rfl, rfl, rfl⟩ := h
      exact ⟨n, hP, .inr hl⟩
    | cons s l =>
      rw [if_neg (by simp [SliceDeque.isEmpty_iff, hl, hn]), SliceDeque.front_of_cons hl] at h
      dsimp only at h
      rw [hl, List.length_cons] at hfuel
      split_ifs at h with h0 hlt
      · obtain ⟨hpop, hlog⟩ := SliceDeque.popFront_of_cons hl w
        have hdrops : DropsFront s other w { other with slices := (other.slices.popFront w).1 }
            (other.slices.popFront w).2 :=
          ⟨by omega, hlog, rfl, rfl, by rw [hpop, hl]⟩
        have ho' := hdrops.evolves.wf ho
        exact ih n _ _ _ hb ho' (by rw [hpop]; omega) h (hdrop s n _ _ _ _ _ hb ho hn hdrops hP)
      · obtain ⟨⟨b₁, w₁⟩, hadd, h⟩ := Option.bind_eq_some_iff.1 h
        have hmin : min s.dataSize n = n := by omega
        rw [hmin] at hadd h hlt
        have hmoves : MovesPart s n b other w b₁
            { other with slices := other.slices.setFront (s.drain n)
                         length := other.length - .ofNat n } w₁ :=
          ⟨hlt, addImpl_spec hb hadd, rfl, rfl, l, hl, SliceDeque.setFront_of_cons hl _⟩
        obtain ⟨hb₁, ho₁⟩ := wf_of_evolves (hmoves.evolves ho) hb ho
        have hP₁ := hpart s n _ _ _ _ _ _ hb ho hn hmoves hP
        -- Nothing is left to be moved, so the loop ends here.
        rw [Nat.sub_self] at h
        cases fuel with
        | zero =>
          simp only [moveLengthLoop, Option.some.injEq, Prod.mk.injEq] at h
          obtain ⟨rfl, rfl, rfl⟩ := h
          exact ⟨0, hP₁, .inl rfl⟩
        | succ fuel =>
          simp only [moveLengthLoop, true_or, if_true, Option.some.injEq, Prod.mk.injEq] at h
          obtain ⟨rfl, rfl, rfl⟩ := h
          exact ⟨0, hP₁, .inl rfl⟩
      · obtain ⟨b₁, other₁, w₁, hmove, hmoves⟩ := exists_moveFront hb ho hl w
        have hmin : min s.dataSize n = s.dataSize := by omega
        rw [hmove, Option.bind_some, hmin] at h
        obtain ⟨hb₁, ho₁⟩ := hmoves.wf hb ho
        refine ih _ b₁ other₁ w₁ hb₁ ho₁ ?_ h
          (hwhole s n _ _ _ _ _ _ hb ho (by omega) (by omega) hmoves hP)
        have := congrArg List.length (hl.symm.trans hmoves.otherSlices)
        rw [List.length_cons, List.length_cons] at this
        omega

/-- A whole move is an evolution. -/
theorem move_evolves (hb : b.WF) (ho : other.WF) (h : b.move other w = some (b', other', w')) :
    Evolves (slicesOf b.slices.toList + slicesOf other.slices.toList) w
      (slicesOf b'.slices.toList + slicesOf other'.slices.toList) w' :=
  (move_induction (P := fun b' other' w' ↦
      Evolves (slicesOf b.slices.toList + slicesOf other.slices.toList) w
        (slicesOf b'.slices.toList + slicesOf other'.slices.toList) w')
    (fun _ _ _ _ _ _ _ _ _ hmoves ih ↦ ih.trans hmoves.evolves) hb ho h (.refl _ _)).1

/-- A partial move is an evolution as well. -/
theorem moveLength_evolves {n : ℕ} (hb : b.WF) (ho : other.WF)
    (h : b.moveLength other n w = some (b', other', w')) :
    Evolves (slicesOf b.slices.toList + slicesOf other.slices.toList) w
      (slicesOf b'.slices.toList + slicesOf other'.slices.toList) w' := by
  obtain ⟨m, hevolves, -⟩ := moveLength_induction (P := fun _ b' other' w' ↦
      Evolves (slicesOf b.slices.toList + slicesOf other.slices.toList) w
        (slicesOf b'.slices.toList + slicesOf other'.slices.toList) w')
    (fun _ _ _ _ _ _ _ _ _ _ hdrops ih ↦ ih.trans (hdrops.evolves.frame _))
    (fun _ _ _ _ _ _ _ _ _ ho _ hmoves ih ↦ ih.trans (hmoves.evolves ho))
    (fun _ _ _ _ _ _ _ _ _ _ _ _ hmoves ih ↦ ih.trans hmoves.evolves) hb ho h (.refl _ _)
  exact hevolves

end OwnedImpl

/-- What moving the last slice `s` of a buffer to the front of another does. -/
structure MovesBack (s : Slice α) (b other : OwnedImpl α) (w : World α) (b' other' : OwnedImpl α)
    (w' : World α) : Prop where
  /-- The account of the target stays. -/
  account : b'.account = b.account
  /-- Its length counts the slice. -/
  length : b'.length = b.length + .ofNat s.dataSize
  /-- The slice is in front, and charged to the account. -/
  slices : b'.slices.toList = (s.maybeChargeAccount b.account w).1 :: b.slices.toList
  /-- That is all that is called. -/
  world : w' = (s.maybeChargeAccount b.account w).2
  /-- The account of the other buffer stays. -/
  otherAccount : other'.account = other.account
  /-- Its length does not count the slice any more. -/
  otherLength : other'.length = other.length - .ofNat s.dataSize
  /-- It has the other slices. -/
  otherSlices : other.slices.toList = other'.slices.toList ++ [s]

/-- The slices of both buffers evolve. -/
theorem MovesBack.evolves {s : Slice α} {b b' other other' : OwnedImpl α} {w w' : World α}
    (h : MovesBack s b other w b' other' w') :
    Evolves (slicesOf b.slices.toList + slicesOf other.slices.toList) w
      (slicesOf b'.slices.toList + slicesOf other'.slices.toList) w' := by
  have := (((evolves_maybeChargeAccount s b.account w).cons b.slices.toList)).frame_right
    (slicesOf other'.slices.toList)
  rw [← h.slices, ← h.world] at this
  rw [h.otherSlices, slicesOf_append, add_comm (slicesOf other'.slices.toList), ← add_assoc,
    add_comm (slicesOf b.slices.toList), ← slicesOf_cons]
  exact this

namespace OwnedImpl

variable {b other : OwnedImpl α} {w : World α}

/-- `prepend` of a buffer takes its slices one by one, from the last to the first. -/
theorem prependInstance_induction {P : OwnedImpl α → OwnedImpl α → World α → Prop}
    (hstep : ∀ s b other w b' other' w', MovesBack s b other w b' other' w' →
      P b other w → P b' other' w') (hP : P b other w) :
    P (b.prependInstance other w).1 (b.prependInstance other w).2.1
        (b.prependInstance other w).2.2 ∧
      (b.prependInstance other w).2.1.slices.toList = [] := by
  suffices hloop : ∀ fuel (b other : OwnedImpl α) (w : World α),
      other.slices.toList.length ≤ fuel → P b other w →
      P (prependInstanceLoop fuel b other w).1 (prependInstanceLoop fuel b other w).2.1
          (prependInstanceLoop fuel b other w).2.2 ∧
        (prependInstanceLoop fuel b other w).2.1.slices.toList = [] from
    hloop _ b other w (Nat.le_of_eq other.slices.length_toList) hP
  intro fuel
  induction fuel with
  | zero =>
    intro b other w hfuel hP
    rw [prependInstanceLoop]
    exact ⟨hP, List.length_eq_zero_iff.1 (Nat.le_zero.1 hfuel)⟩
  | succ fuel ih =>
    intro b other w hfuel hP
    rw [prependInstanceLoop]
    rcases List.eq_nil_or_concat' other.slices.toList with hl | ⟨l, s, hl⟩
    · rw [if_pos (SliceDeque.isEmpty_iff.2 hl)]
      exact ⟨hP, hl⟩
    · rw [if_neg (by simp [SliceDeque.isEmpty_iff, hl])]
      have hback := SliceDeque.back_of_concat hl
      have hfront := SliceDeque.toList_emplaceFront b.slices s w
      have hmoved := SliceDeque.setBack_of_concat hl .empty
      obtain ⟨hpop, hlog⟩ :=
        SliceDeque.popBack_of_concat hmoved (s.maybeChargeAccount b.account w).2
      rw [Slice.releaseEvents_empty, World.log_nil] at hlog
      simp only [hback, SliceDeque.emplaceFront_snd, SliceDeque.front_of_cons hfront]
      refine ih _ _ _ ?_ (hstep s b other w _ _ _ ⟨rfl, rfl, SliceDeque.setFront_of_cons hfront _,
        hlog, rfl, rfl, ?_⟩ hP)
      · rw [hpop]
        rw [hl, List.length_append, List.length_singleton] at hfuel
        omega
      · rw [hl, hpop]

/-- So they do if a whole buffer is prepended. -/
theorem prependInstance_evolves (b other : OwnedImpl α) (w : World α) :
    Evolves (slicesOf b.slices.toList + slicesOf other.slices.toList) w
      (slicesOf (b.prependInstance other w).1.slices.toList +
        slicesOf (b.prependInstance other w).2.1.slices.toList) (b.prependInstance other w).2.2 :=
  (prependInstance_induction (P := fun b' other' w' ↦
      Evolves (slicesOf b.slices.toList + slicesOf other.slices.toList) w
        (slicesOf b'.slices.toList + slicesOf other'.slices.toList) w')
    (fun _ _ _ _ _ _ _ hmoves ih ↦ ih.trans hmoves.evolves) (.refl _ _)).1

/-- The destructor releases all slices. -/
theorem destroy_evolves (b : OwnedImpl α) (w : World α) :
    Evolves (slicesOf b.slices.toList) w 0 (b.destroy w) := by
  obtain ⟨l, hperm, hdestroy⟩ := b.slices.destroy_eq w
  have hvacant (k : ℕ) : Evolves 0 w (slicesOf (List.replicate k .empty)) w := by
    induction k with
    | zero => exact .refl _ _
    | succ k ih =>
      rw [List.replicate_succ, slicesOf_cons]
      exact ((evolves_empty w).trans (by simpa using ih.frame (slicesOf [.empty])))
  have hrelease (l : List (Slice α)) : ∀ w : World α,
      Evolves (slicesOf l) w 0 (w.log (releases l)) := by
    induction l with
    | nil =>
      intro w
      rw [releases_nil, World.log_nil]
      exact .refl _ _
    | cons s l ih =>
      intro w
      have := (evolves_release s w).frame_right (slicesOf l)
      rw [← slicesOf_cons, zero_add] at this
      rw [releases_cons, ← World.log_log]
      exact this.trans (ih _)
  have hring := (hvacant (b.slices.capacity - b.slices.size)).frame (slicesOf b.slices.toList)
  rw [add_zero, ← slicesOf_append, ← slicesOf_perm hperm] at hring
  rw [destroy, hdestroy]
  exact hring.trans (hrelease l w)

end OwnedImpl

end TcpServer.Buffer
