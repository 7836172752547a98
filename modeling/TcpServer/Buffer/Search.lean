import TcpServer.Lib.Occurrence
import TcpServer.Buffer.Transfers

/-!
# Searching a buffer

`search` is the naive scan: for each occurrence of the first byte of the needle, compare the others,
across as many slices as it takes. One counter, `left_to_search`, says how far the scan may still
look; it is saved before a comparison and restored when the comparison fails.

The content of the buffer is the slices before the cursor, what is left of the current slice, and
the slices behind it, and the counter is the distance from the cursor to the end of the window
(`searchLoop_spec`, `scanSlice_spec`). A search that starts behind the end begins with a wrapped
counter, but then every slice is skipped and the counter is never looked at (`searchLoop_of_le`).

What is to be found is a set of indices (`Matches`), and the scan looks for its least element. A
candidate, an occurrence of the first byte, is either the least element or not in the set; in both
cases the matches behind it are those of the rest (`matches_eq_of_candidate_notMem`), which is how
the induction goes on.
-/

namespace TcpServer.Buffer

open Occurrence

variable {α : Type*}

namespace OwnedImpl

/-- The byte at `match_next`, after the slices without one are stepped over. -/
def nextByte (w : World α) : List α → List (Slice α) → Option (α × List α × List (Slice α))
  | y :: ys, later => some (y, ys, later)
  | [], [] => none
  | [], slice :: later => nextByte w (slice.bytes w) later

variable [DecidableEq α]

/-- The comparison of the rest of the needle; `cur` is what is left of the slice of the match. -/
def matchLoop (w : World α) : List α → List α → List (Slice α) → ℕ → Bool
  | [], _, _, _ => true
  | x :: xs, cur, later, leftToSearch =>
    if leftToSearch = 0 then false
    else
      match nextByte w cur later with
      | none => false
      | some (y, cur, later) => if y ≠ x then false else matchLoop w xs cur later (leftToSearch - 1)

/-- The scan of one slice for the needle `c :: rest`, from position `pos` on. The result is the
position of a match, if there is one, and the counter. -/
def scanSlice (w : World α) (c : α) (rest : List α) (later : List (Slice α)) :
    ℕ → List α → ℕ → ℕ → Option ℕ × ℕ
  | 0, _, _, leftToSearch => (none, leftToSearch)
  | fuel + 1, haystack, pos, leftToSearch =>
    if haystack.isEmpty then (none, leftToSearch)
    else
      let sliceSearchLimit := min haystack.length leftToSearch
      match memchr (haystack.take sliceSearchLimit) c with
      | none => (none, leftToSearch - sliceSearchLimit)
      | some firstByteMatch =>
        let leftToSearch := leftToSearch - (firstByteMatch + 1)
        if matchLoop w rest (haystack.drop (firstByteMatch + 1)) later leftToSearch then
          (some (pos + firstByteMatch), leftToSearch)
        else
          scanSlice w c rest later fuel (haystack.drop (firstByteMatch + 1))
            (pos + firstByteMatch + 1) leftToSearch

/-- The loop over the slices. -/
def searchLoop (w : World α) (c : α) (rest : List α) : List (Slice α) → ℕ → ℕ → ℕ → ℤ
  | [], _, _, _ => -1
  | slice :: later, start, leftToSearch, offset =>
    if leftToSearch = 0 then -1
    else if slice.dataSize ≤ start then
      searchLoop w c rest later (start - slice.dataSize) leftToSearch (offset + slice.dataSize)
    else
      match scanSlice w c rest later slice.dataSize ((slice.bytes w).drop start) start leftToSearch
        with
      | (some pos, _) => (offset + pos : ℕ)
      | (none, leftToSearch) => searchLoop w c rest later 0 leftToSearch (offset + slice.dataSize)

/-- `search`: an empty needle is found at once, and a length of zero is the length up to the end. -/
def search (b : OwnedImpl α) (data : List α) (start length : ℕ) (w : World α) : ℤ :=
  match data with
  | [] => if start ≤ b.length.toNat then start else -1
  | c :: rest =>
    let leftToSearch := if length = 0 then (b.length - .ofNat start).toNat else length
    searchLoop w c rest b.slices.toList start leftToSearch 0

/-! ### The comparison

The comparison steps over slices without data, so what it sees is the content behind the candidate.
-/

omit [DecidableEq α] in
/-- There is no next byte at the end of the buffer. -/
theorem nextByte_eq_none {w : World α} {cur : List α} {later : List (Slice α)}
    (h : nextByte w cur later = none) : cur ++ contentOf w later = [] := by
  induction later generalizing cur with
  | nil =>
    cases cur with
    | nil => rfl
    | cons y ys => cases h
  | cons s later ih =>
    cases cur with
    | nil => exact ih h
    | cons y ys => cases h

omit [DecidableEq α] in
/-- The next byte is the first one of what is left. -/
theorem nextByte_eq_some {w : World α} {cur cur' : List α} {later later' : List (Slice α)} {y : α}
    (h : nextByte w cur later = some (y, cur', later')) :
    cur ++ contentOf w later = y :: (cur' ++ contentOf w later') := by
  induction later generalizing cur with
  | nil =>
    cases cur with
    | nil => cases h
    | cons y ys =>
      cases h
      rfl
  | cons s later ih =>
    cases cur with
    | nil => exact ih h
    | cons y ys =>
      cases h
      rfl

/-- The comparison succeeds if the needle goes on as the buffer does, and within the window. -/
theorem matchLoop_iff {w : World α} {xs cur : List α} {later : List (Slice α)} {left : ℕ} :
    matchLoop w xs cur later left = true ↔
      xs <+: cur ++ contentOf w later ∧ xs.length ≤ left := by
  induction xs generalizing cur later left with
  | nil => simp [matchLoop]
  | cons x xs ih =>
    rw [matchLoop]
    split_ifs with h0
    · rw [List.length_cons]
      exact iff_of_false id fun h ↦ by omega
    cases hnext : nextByte w cur later with
    | none =>
      rw [nextByte_eq_none hnext]
      exact iff_of_false Bool.false_ne_true fun h ↦ by simp at h
    | some r =>
      obtain ⟨y, cur', later'⟩ := r
      rw [nextByte_eq_some hnext, List.cons_prefix_cons, List.length_cons]
      dsimp only
      split_ifs with hy
      · exact iff_of_false id fun h ↦ hy h.1.1.symm
      · push Not at hy
        rw [ih]
        constructor
        · intro h
          exact ⟨⟨hy.symm, h.1⟩, by omega⟩
        · intro h
          exact ⟨h.1.2, by omega⟩

/-! ### The scan

`memchr` finds the candidates of one slice, and no candidate spans two of them, as it is a single
byte.
-/

/-- The indices at which a search finds the needle: from `start` on, and ending before `stop`. -/
def Matches (needle hay : List α) (start stop : ℕ) : Set ℕ :=
  {i | start ≤ i ∧ OccursAt needle hay i ∧ i + needle.length ≤ stop}

omit [DecidableEq α] in
/-- Bytes in which the first one of the needle does not occur hold no match. -/
theorem matches_skip {c : α} {rest pre skip hay : List α} {stop i : ℕ} (hc : c ∉ skip)
    (hi : i ∈ Matches (c :: rest) (pre ++ (skip ++ hay)) pre.length stop) :
    pre.length + skip.length ≤ i := by
  obtain ⟨hle, hocc, -⟩ := hi
  by_contra hlt
  have hget := hocc.getElem?_eq
  rw [List.getElem?_append_right hle, List.getElem?_append_left (by omega)] at hget
  exact hc (List.mem_of_getElem? hget)

omit [DecidableEq α] in
/-- Where the first byte of the needle occurs first, there is a match if the rest follows. -/
theorem mem_matches_candidate_iff {c : α} {rest pre before tail : List α} {stop : ℕ} :
    pre.length + before.length ∈ Matches (c :: rest) (pre ++ (before ++ c :: tail)) pre.length
      stop ↔
      rest <+: tail ∧ pre.length + before.length + (rest.length + 1) ≤ stop := by
  have hat : OccursAt (c :: rest) (pre ++ (before ++ c :: tail)) (pre.length + before.length) ↔
      rest <+: tail := by
    rw [← List.append_assoc, ← List.length_append]
    exact occursAt_cons_iff c rest _ _
  exact ⟨fun h ↦ ⟨hat.1 h.2.1, h.2.2⟩, fun h ↦ ⟨Nat.le_add_right _ _, hat.2 h.1, h.2⟩⟩

omit [DecidableEq α] in
/-- If there is none, all matches are behind it. -/
theorem matches_eq_of_candidate_notMem {c : α} {rest pre before tail : List α} {stop : ℕ}
    (hc : c ∉ before)
    (hnot : pre.length + before.length ∉
      Matches (c :: rest) (pre ++ (before ++ c :: tail)) pre.length stop) :
    Matches (c :: rest) (pre ++ (before ++ c :: tail)) pre.length stop =
      Matches (c :: rest) (pre ++ (before ++ c :: tail)) (pre.length + before.length + 1) stop := by
  ext i
  refine ⟨fun hi ↦ ⟨?_, hi.2⟩, fun hi ↦ ⟨?_, hi.2⟩⟩
  · have hge : pre.length + before.length ≤ i := matches_skip hc hi
    exact Nat.lt_of_le_of_ne hge fun heq ↦ hnot (heq ▸ hi)
  · have hle := hi.1
    omega

/-- What `memchr` has found is the first occurrence, and within the window. -/
theorem of_memchr_take_eq_some {hay : List α} {c : α} {n k : ℕ}
    (h : memchr (hay.take n) c = some k) :
    ∃ before after, hay = before ++ c :: after ∧ before.length = k ∧ c ∉ before ∧ k < n := by
  obtain ⟨before, after, hsplit, hk, hc⟩ := memchr_eq_some_iff.1 h
  refine ⟨before, after ++ hay.drop n, ?_, hk, hc, ?_⟩
  · rw [← List.cons_append, ← List.append_assoc, ← hsplit, List.take_append_drop]
  · have hlen := congrArg List.length hsplit
    rw [List.length_take, List.length_append, List.length_cons] at hlen
    omega

/-- What a scan of the rest `hay` of a slice finds, with the bytes `pre` before it. -/
theorem scanSlice_spec (w : World α) (c : α) (rest : List α) (later : List (Slice α)) (stop : ℕ)
    {fuel : ℕ} (pre : List α) {hay : List α} (hfuel : hay.length ≤ fuel) (pos : ℕ) :
    (∃ j left, scanSlice w c rest later fuel hay pos (stop - pre.length) = (some (pos + j), left) ∧
      IsLeast (Matches (c :: rest) (pre ++ (hay ++ contentOf w later)) pre.length stop)
        (pre.length + j)) ∨
    scanSlice w c rest later fuel hay pos (stop - pre.length) =
        (none, stop - (pre.length + hay.length)) ∧
      ∀ i ∈ Matches (c :: rest) (pre ++ (hay ++ contentOf w later)) pre.length stop,
        pre.length + hay.length ≤ i := by
  induction fuel generalizing pre hay pos with
  | zero =>
    obtain rfl : hay = [] := List.length_eq_zero_iff.1 (by omega)
    exact .inr ⟨rfl, fun i hi ↦ hi.1⟩
  | succ fuel ih =>
    rw [scanSlice]
    cases hnil : hay.isEmpty with
    | true =>
      obtain rfl := List.isEmpty_iff.1 hnil
      exact .inr ⟨rfl, fun i hi ↦ hi.1⟩
    | false =>
      rw [if_neg Bool.false_ne_true]
      dsimp only
      cases hmem : memchr (hay.take (min hay.length (stop - pre.length))) c with
      | none =>
        refine .inr ⟨Prod.ext rfl (by dsimp only; omega), fun i hi ↦ ?_⟩
        -- Within the window the first byte does not occur, and the match ends in the window.
        have hsplit := List.take_append_drop (min hay.length (stop - pre.length)) hay
        rw [← hsplit, List.append_assoc] at hi
        have hskip := matches_skip (memchr_eq_none_iff.1 hmem) hi
        have hstop := hi.2.2
        rw [List.length_take, List.length_cons] at *
        omega
      | some k =>
        obtain ⟨before, after, rfl, rfl, hc, hlt⟩ := of_memchr_take_eq_some hmem
        have hdrop : (before ++ c :: after).drop (before.length + 1) = after := by
          rw [List.drop_append, List.drop_eq_nil_of_le (Nat.le_succ _), Nat.add_sub_cancel_left]
          rfl
        have hwhole : pre ++ ((before ++ c :: after) ++ contentOf w later) =
            pre ++ (before ++ c :: (after ++ contentOf w later)) := by
          rw [List.append_assoc, List.cons_append]
        have hfirst (i : ℕ) (hi : i ∈ Matches (c :: rest)
            (pre ++ (before ++ c :: (after ++ contentOf w later))) pre.length stop) :
            pre.length + before.length ≤ i := matches_skip hc hi
        dsimp only
        rw [hdrop, hwhole]
        by_cases hmatch :
            matchLoop w rest after later (stop - pre.length - (before.length + 1)) = true
        · rw [if_pos hmatch]
          obtain ⟨hpre, hle⟩ := matchLoop_iff.1 hmatch
          exact .inl ⟨before.length, _, rfl, mem_matches_candidate_iff.2 ⟨hpre, by omega⟩, hfirst⟩
        · rw [if_neg hmatch]
          -- The scan goes on behind the byte, where all further matches are.
          have hnot : pre.length + before.length ∉ Matches (c :: rest)
              (pre ++ (before ++ c :: (after ++ contentOf w later))) pre.length stop := by
            intro hmem
            obtain ⟨hpre, hle⟩ := mem_matches_candidate_iff.1 hmem
            exact hmatch (matchLoop_iff.2 ⟨hpre, by omega⟩)
          have hnext : (pre ++ before ++ [c]).length = pre.length + before.length + 1 := by
            rw [List.length_append, List.length_append, List.length_singleton]
          have hwhole' : (pre ++ before ++ [c]) ++ (after ++ contentOf w later) =
              pre ++ (before ++ c :: (after ++ contentOf w later)) := by
            simp only [List.append_assoc, List.singleton_append]
          have hlen : (before ++ c :: after).length = before.length + 1 + after.length := by
            rw [List.length_append, List.length_cons]
            omega
          have hleft : stop - pre.length - (before.length + 1) =
              stop - (pre.length + before.length + 1) := by omega
          have hfuel' : after.length ≤ fuel := by omega
          have hscan := ih (pre ++ before ++ [c]) hfuel' (pos + before.length + 1)
          rw [hwhole', hnext, ← matches_eq_of_candidate_notMem hc hnot] at hscan
          rw [hleft]
          rcases hscan with ⟨j, left, hscan, hleast⟩ | ⟨hscan, hafter⟩
          · refine .inl ⟨before.length + 1 + j, left, ?_, ?_⟩
            · rw [hscan, show pos + before.length + 1 + j = pos + (before.length + 1 + j) by omega]
            · have heq : pre.length + (before.length + 1 + j) =
                  pre.length + before.length + 1 + j := by
                omega
              rwa [heq]
          · refine .inr ⟨?_, fun i hi ↦ ?_⟩
            · rw [hscan, hlen, show pre.length + before.length + 1 + after.length =
                pre.length + (before.length + 1 + after.length) by omega]
            · have hle := hafter i hi
              omega

/-- A search that starts behind the last byte finds nothing, whatever the counter says. -/
theorem searchLoop_of_le {w : World α} {c : α} {rest : List α} {l : List (Slice α)}
    {start left offset : ℕ} (h : dataSizes l ≤ start) :
    searchLoop w c rest l start left offset = -1 := by
  induction l generalizing start offset with
  | nil => rfl
  | cons s l ih =>
    rw [dataSizes_cons] at h
    rw [searchLoop]
    split_ifs with h0 hskip
    · rfl
    · exact ih (by omega)
    · omega

/-- The search of the slices `l` behind the bytes `pre`. -/
theorem searchLoop_spec (w : World α) (c : α) (rest : List α) {l : List (Slice α)}
    (hl : ∀ s ∈ l, s.WF) (pre : List α) (start stop : ℕ) :
    First (Matches (c :: rest) (pre ++ contentOf w l) (pre.length + start) stop)
      (searchLoop w c rest l start (stop - (pre.length + start)) pre.length) := by
  induction l generalizing pre start with
  | nil =>
    refine .inr ⟨rfl, Set.eq_empty_of_forall_notMem fun i hi ↦ ?_⟩
    have hle := hi.2.1.length_le (List.cons_ne_nil c rest)
    have hge := hi.1
    rw [contentOf_nil, List.append_nil, List.length_cons] at hle
    omega
  | cons s l ih =>
    have hl' := fun t ht ↦ hl t (List.mem_cons_of_mem s ht)
    have hlen := (hl s List.mem_cons_self).length_bytes w
    have hpre : (pre ++ s.bytes w).length = pre.length + s.dataSize := by
      rw [List.length_append, hlen]
    rw [searchLoop]
    split_ifs with h0 hskip
    · refine .inr ⟨rfl, Set.eq_empty_of_forall_notMem fun i hi ↦ ?_⟩
      have hge := hi.1
      have hstop := hi.2.2
      rw [List.length_cons] at hstop
      omega
    · -- The slice is stepped over.
      have := ih hl' (pre ++ s.bytes w) (start - s.dataSize)
      rw [hpre, show pre.length + s.dataSize + (start - s.dataSize) = pre.length + start by omega,
        List.append_assoc] at this
      exact this
    · have hwhole : pre ++ contentOf w (s :: l) =
          (pre ++ (s.bytes w).take start) ++ ((s.bytes w).drop start ++ contentOf w l) := by
        rw [contentOf_cons, List.append_assoc, ← List.append_assoc ((s.bytes w).take start),
          List.take_append_drop]
      have hcursor : (pre ++ (s.bytes w).take start).length = pre.length + start := by
        rw [List.length_append, List.length_take, hlen]
        omega
      have hrest : ((s.bytes w).drop start).length = s.dataSize - start := by
        rw [List.length_drop, hlen]
      have hfuel : ((s.bytes w).drop start).length ≤ s.dataSize := by omega
      have hscan := scanSlice_spec w c rest l stop (pre ++ (s.bytes w).take start) hfuel start
      rw [← hwhole, hcursor, hrest] at hscan
      rcases hscan with ⟨j, left, hscan, hleast⟩ | ⟨hscan, hafter⟩
      · rw [hscan]
        dsimp only
        rw [← Nat.add_assoc]
        exact .inl ⟨_, rfl, hleast⟩
      · rw [hscan, show pre.length + start + (s.dataSize - start) =
          (pre ++ s.bytes w).length + 0 by omega]
        dsimp only
        have := ih hl' (pre ++ s.bytes w) 0
        rw [List.append_assoc, ← contentOf_cons] at this
        rw [← hpre]
        -- No match begins in this slice.
        convert this using 1
        ext i
        refine ⟨fun hi ↦ ⟨?_, hi.2⟩, fun hi ↦ ⟨?_, hi.2⟩⟩
        · have := hafter i hi
          omega
        · have := hi.1
          omega

/-- The end of the window of a search. -/
def searchStop (total start length : ℕ) : ℕ :=
  if length = 0 then total else min total (start + length)

/-- **`search` finds the first match**, however the bytes are cut into slices. -/
theorem search_finds_first {b : OwnedImpl α} (hb : b.WF) {w : World α}
    (hlength : b.length.toNat = (contentOf w b.slices.toList).length)
    (htotal : (contentOf w b.slices.toList).length < 2 ^ 63) (data : List α) (start length : ℕ)
    (hrange : start + length ≤ 2 ^ 64 - 1) :
    (data = [] → b.search data start length w =
      if start ≤ (contentOf w b.slices.toList).length then (start : ℤ) else -1) ∧
    (data ≠ [] → First (Matches data (contentOf w b.slices.toList) start
        (searchStop (contentOf w b.slices.toList).length start length))
      (b.search data start length w)) := by
  constructor
  · rintro rfl
    rw [search, hlength]
  · intro hne
    obtain ⟨c, rest, rfl⟩ := List.exists_cons_of_ne_nil hne
    have hsizes := length_contentOf w hb
    rw [search]
    by_cases hbehind : (contentOf w b.slices.toList).length < start
    · rw [searchLoop_of_le (by omega)]
      refine .inr ⟨rfl, Set.eq_empty_of_forall_notMem fun i hi ↦ ?_⟩
      have hge := hi.1
      have hle := hi.2.1.length_le (List.cons_ne_nil c rest)
      rw [List.length_cons] at hle
      omega
    · -- The counter does not wrap.
      have hleft : (if length = 0 then (b.length - .ofNat start).toNat else length) =
          (if length = 0 then b.length.toNat else start + length) - start := by
        split_ifs
        · have hle : UInt64.ofNat start ≤ b.length := by
            rw [UInt64.le_iff_toNat_le, UInt64.toNat_ofNat']
            omega
          rw [UInt64.toNat_sub_of_le _ _ hle, UInt64.toNat_ofNat', Nat.mod_eq_of_lt (by omega)]
        · omega
      have := searchLoop_spec w c rest hb [] start
        (if length = 0 then b.length.toNat else start + length)
      rw [List.length_nil, Nat.zero_add, List.nil_append] at this
      rw [hleft]
      -- A match ends before the content does.
      convert this using 1
      ext i
      rw [searchStop]
      refine and_congr_right fun _ ↦ and_congr_right fun hocc ↦ ?_
      have hle := hocc.length_le (List.cons_ne_nil c rest)
      split_ifs <;> omega

/-- Two slices, and a match that begins in one and ends in the other. -/
def splitMatch : OwnedImpl ℕ × World ℕ :=
  let w₀ : World ℕ := { fragments := fun _ _ ↦ 0, fresh := fun _ _ ↦ 0 }
  let (b, w) := ({} : OwnedImpl ℕ).appendSliceForTest [7, 1] w₀
  b.appendSliceForTest [2, 3] w

/-- The match spans both slices, and it is found. -/
theorem search_finds_first_splitMatch :
    contentOf splitMatch.2 splitMatch.1.slices.toList = [7, 1, 2, 3] ∧
      First (Matches [1, 2] [7, 1, 2, 3] 0 4) (splitMatch.1.search [1, 2] 0 0 splitMatch.2) := by
  have hcontent : contentOf splitMatch.2 splitMatch.1.slices.toList = [7, 1, 2, 3] := by decide
  have hb : splitMatch.1.WF := by
    have hempty : ({} : OwnedImpl ℕ).WF := fun s hs ↦ absurd hs (by simp)
    have happend (b : OwnedImpl ℕ) (hb : b.WF) (d : List ℕ) (w : World ℕ) :
        (b.appendSliceForTest d w).1.WF := (appendSliceForTest_evolves hb d w).wf hb
    exact happend _ (happend _ hempty _ _) _ _
  have hlength : splitMatch.1.length.toNat = 4 := by decide
  have := (search_finds_first hb (w := splitMatch.2) (by rw [hcontent, hlength]; rfl)
    (by rw [hcontent]; decide) [1, 2] 0 0 (Nat.zero_le _)).2 (List.cons_ne_nil _ _)
  rw [hcontent] at this
  exact ⟨hcontent, this⟩

end OwnedImpl

end TcpServer.Buffer
