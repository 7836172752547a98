import TcpServer.Lib.FormattedInput
import TcpServer.Common.Tokens
import TcpServer.Network.Copy
import TcpServer.Server.ListenerManager

/-!
# Port ranges

`parsePortRangeList` reads the items of a list of ports with formatted input, so it accepts what can
be read in this way (`PortRange.Lenient`): numbers with signs and whitespace before them, negative
numbers that wrap around to ports, any character for the dash, and ranges that end before they
start. What a list of ports is to be (`PortRange.Item`) is a part of that.

So the function throws as it should unless all items are lenient, and adds the right ranges if all
are items (`parsesPortRanges_iff`).

The ranges that were read before a rejected item have already been added to the list when the
exception is thrown, so the list is a result of its own here. Formatted input is that of the
standard library: it skips whitespace, takes as many digits as there are, and sets `failbit` for a
number that does not fit and `eofbit` when it has come to the end.
-/

namespace TcpServer.Network

open Common FormattedInput Server

/-! ### The parser -/

/-- A range of ports, as it was read; nothing keeps it from ending before it starts. -/
structure PortRange where
  /-- The first port of the range. -/
  min : BitVec 32
  /-- The last port of the range, which is in it. -/
  max : BitVec 32
deriving DecidableEq

/-- `PortRange::contains`. -/
def PortRange.contains (range : PortRange) (port : BitVec 32) : Bool :=
  port ≥ range.min ∧ port ≤ range.max

/-- `min`, `max` and the stream after extracting them from an item. -/
def readPortRange (s : Bytes) : PortRange × Istream :=
  let ss : Istream := { rest := s }
  if s.contains 45 then
    let (min, ss) := ss.getUnsigned 0
    let (_, ss) := ss.getChar 0
    let (max, ss) := ss.getUnsigned 0
    ({ min, max }, ss)
  else
    let (min, ss) := ss.getUnsigned 0
    ({ min, max := min }, ss)

/-- The test after that. -/
def Rejected (s : Bytes) (range : PortRange) (ss : Istream) : Prop :=
  s.isEmpty ∨ range.min > 65535 ∨ range.max > 65535 ∨ ss.fail ∨ ¬ ss.eof

instance (s : Bytes) (range : PortRange) (ss : Istream) : Decidable (Rejected s range ss) :=
  inferInstanceAs (Decidable (_ ∨ _))

/-- The characters of an item, for the message of the exception. -/
def bytesToText (s : Bytes) : Text := s.map fun c ↦ Char.ofNat c.toNat

/-- The loop of `Utility::parsePortRangeList`. The ranges before a rejected item have been added. -/
def addPortRanges : List Bytes → List PortRange → Except EnvoyException Unit × List PortRange
  | [], list => (.ok (), list)
  | s :: ranges, list =>
    let (range, ss) := readPortRange s
    if Rejected s range ss then
      (.error ⟨"invalid port number or range '".toList ++ bytesToText s ++ "'".toList⟩, list)
    else addPortRanges ranges (list ++ [range])

/-- `Utility::parsePortRangeList`. The exception, if one is thrown, and the list. -/
def parsePortRangeList (string : Bytes) (list : List PortRange) :
    Except EnvoyException Unit × List PortRange :=
  addPortRanges (splitToken string [44] false false) list

/-- `Utility::portInRangeList`. -/
def portInRangeList (address : Instance) (list : List PortRange) : Bool :=
  if address.type ≠ .ip then false
  else list.any fun p ↦ address.ip.any fun ip ↦ p.contains ip.port

/-! ### Lists of ports -/

/-- The items between the commas that are not empty. -/
def portItems (string : Bytes) : List Bytes :=
  (string.splitOnP (· = 44)).filter fun item ↦ item ≠ []

namespace PortRange

/-- A range that is written as a number, or as two numbers with a dash. -/
inductive Item : Bytes → PortRange → Prop
  | single {digits : Bytes} (hdigits : Numeral digits) (hle : valueOf digits ≤ 65535) :
    Item digits ⟨.ofNat 32 (valueOf digits), .ofNat 32 (valueOf digits)⟩
  | range {low high : Bytes} (hlow : Numeral low) (hhigh : Numeral high)
      (hle : valueOf low ≤ valueOf high)
    (hhigh_le : valueOf high ≤ 65535) :
    Item (low ++ 45 :: high) ⟨.ofNat 32 (valueOf low), .ofNat 32 (valueOf high)⟩

/-- A range in what formatted input takes for a number, or for two with a character between them, if
there is a minus anywhere. A digit behind the first number would be a part of it. -/
inductive Lenient : Bytes → PortRange → Prop
  | single {text : Bytes} {v : BitVec 32} (htext : Reads text v) (hdash : 45 ∉ text)
      (hle : v.toNat ≤ 65535) :
    Lenient text ⟨v, v⟩
  | range {low high spaces : Bytes} {c : UInt8} {v v' : BitVec 32} (hlow : Reads low v)
    (hspaces : Spaces spaces) (hc : isSpace c = false) (hstop : Stops isDigit (spaces ++ [c]))
    (hhigh : Reads high v') (hdash : 45 ∈ low ++ (spaces ++ c :: high)) (hle : v.toNat ≤ 65535)
    (hle' : v'.toNat ≤ 65535) : Lenient (low ++ (spaces ++ c :: high)) ⟨v, v'⟩

end PortRange

/-- What parsing a list of ports is to do. -/
structure ParsesPortRanges (string : Bytes) : Prop where
  /-- An exception is thrown exactly if some item is no port and no range of ports. -/
  throws_iff : ∀ list, (∃ e, (parsePortRangeList string list).1 = .error e) ↔
    ∃ item ∈ portItems string, ¬ ∃ range, PortRange.Item item range
  /-- If none is thrown, the ranges of the items are added in their order, and a port is in the list
  exactly if it is in one of them. -/
  ranges : (∀ list e, (parsePortRangeList string list).1 ≠ .error e) →
    ∃ ranges, List.Forall₂ PortRange.Item (portItems string) ranges ∧
      (∀ list, (parsePortRangeList string list).2 = list ++ ranges) ∧
      ∀ address, portInRangeList address (parsePortRangeList string []).2 = true ↔
        ∃ ip, address.ip = some ip ∧
          ∃ range ∈ ranges, range.min.toNat ≤ ip.port.toNat ∧ ip.port.toNat ≤ range.max.toNat

variable {s item string : Bytes} {r r' range : PortRange} {items : List Bytes}
    {ranges list : List PortRange}

/-! ### What is accepted

An item is accepted when both numbers have been read, fit into a port, and nothing is behind them:
the stream has not failed and has come to its end. The last condition is what a character behind the
number fails.
-/

theorem not_rejected_iff {ss : Istream} :
    ¬ Rejected s range ss ↔
      s ≠ [] ∧ range.min.toNat ≤ 65535 ∧ range.max.toNat ≤ 65535 ∧ ss.fail = false ∧
        ss.eof = true := by
  rw [Rejected, not_or, not_or, not_or, not_or, List.isEmpty_iff, gt_iff_lt, gt_iff_lt,
    BitVec.lt_def, BitVec.lt_def, Nat.not_lt, Nat.not_lt, Bool.not_eq_true, not_not]
  rfl

/-- Without a minus, the one number is both ends of the range. -/
theorem readPortRange_of_notMem (h : 45 ∉ s) :
    readPortRange s =
      (⟨(Istream.getUnsigned 0 { rest := s }).1, (Istream.getUnsigned 0 { rest := s }).1⟩,
        (Istream.getUnsigned 0 { rest := s } : BitVec 32 × Istream).2) :=
  if_neg fun hcontains ↦ h (List.contains_iff_mem.1 hcontains)

theorem readPortRange_of_mem (h : 45 ∈ s) :
    readPortRange s =
      let low : BitVec 32 × Istream := Istream.getUnsigned 0 { rest := s }
      let high : BitVec 32 × Istream := Istream.getUnsigned 0 (Istream.getChar 0 low.2).2
      (⟨low.1, high.1⟩, high.2) :=
  if_pos (List.contains_iff_mem.2 h)

/-- A lenient item is read to its end. -/
theorem readPortRange_of_lenient (h : PortRange.Lenient s r) :
    readPortRange s = (r, { rest := [], eof := true }) := by
  match h with
  | .single (v := v) htext hdash hle =>
    have hread := Istream.getUnsigned_of_reads 0 htext (stops_nil isDigit)
    rw [List.append_nil] at hread
    rw [readPortRange_of_notMem hdash, hread]
    rfl
  | @PortRange.Lenient.range low high spaces c v v' hlow hspaces hc hstop hhigh hdash hle hle' =>
    have hstop' : Stops isDigit (spaces ++ c :: high) := stops_append_cons_iff.2 hstop
    have hread := Istream.getUnsigned_of_reads 0 hlow hstop'
    have hread' := Istream.getUnsigned_of_reads 0 hhigh (stops_nil isDigit)
    have hempty : (spaces ++ c :: high).isEmpty = false := by
      match spaces with
      | [] => rfl
      | _ :: _ => rfl
    rw [hempty] at hread
    rw [List.append_nil] at hread'
    rw [readPortRange_of_mem hdash, hread]
    dsimp only
    rw [Istream.getChar_append hspaces hc, hread']
    rfl

/-- What is not rejected is lenient. -/
theorem lenient_of_not_rejected (h : ¬ Rejected s (readPortRange s).1 (readPortRange s).2) :
    PortRange.Lenient s (readPortRange s).1 := by
  obtain ⟨-, hmin, hmax, hfail, heof⟩ := not_rejected_iff.1 h
  by_cases hdash : 45 ∈ s
  · rw [readPortRange_of_mem hdash] at hmin hmax hfail heof ⊢
    dsimp only at hmin hmax hfail heof ⊢
    obtain ⟨high, rest, hhigh, hreads', -, hrest⟩ := Istream.getUnsigned_sound hfail
    have hfail' := congrArg Istream.fail hhigh
    obtain ⟨spaces, c, l, hspaces, hc, hchar, hl⟩ := Istream.getChar_sound hfail'
    have hfail'' := congrArg Istream.fail hchar
    obtain ⟨low, rest', hlow, hreads, hstop, hrest'⟩ := Istream.getUnsigned_sound hfail''
    rw [hrest] at heof
    obtain rfl : rest = [] := List.isEmpty_iff.1 heof
    obtain rfl : l = high := (congrArg Istream.rest (hl.symm.trans hhigh)).trans
      (List.append_nil high)
    obtain rfl : rest' = spaces ++ c :: l := congrArg Istream.rest (hrest'.symm.trans hchar)
    obtain rfl : s = low ++ (spaces ++ c :: l) := congrArg Istream.rest hlow
    exact .range hreads hspaces hc (stops_append_cons_iff.1 hstop) hreads' hdash hmin hmax
  · rw [readPortRange_of_notMem hdash] at hmin hmax hfail heof ⊢
    dsimp only at hmin hmax hfail heof ⊢
    obtain ⟨text, rest, htext, hreads, -, hrest⟩ := Istream.getUnsigned_sound hfail
    rw [hrest] at heof
    obtain rfl : rest = [] := List.isEmpty_iff.1 heof
    obtain rfl : s = text := (congrArg Istream.rest htext).trans (List.append_nil text)
    exact .single hreads hdash hmin

/-- The ends of a lenient range are ports. -/
theorem PortRange.Lenient.le (h : Lenient s r) :
    s ≠ [] ∧ r.min.toNat ≤ 65535 ∧ r.max.toNat ≤ 65535 := by
  match h with
  | .single htext hdash hle => exact ⟨htext.ne_nil, hle, hle⟩
  | .range hlow hspaces hc hstop hhigh hdash hle hle' => exact ⟨List.ne_nil_of_mem hdash, hle, hle'⟩

/-- **What is accepted** is what is lenient. -/
theorem lenient_iff :
    PortRange.Lenient s r ↔ (readPortRange s).1 = r ∧
      ¬ Rejected s (readPortRange s).1 (readPortRange s).2 := by
  constructor
  · intro h
    rw [readPortRange_of_lenient h]
    exact ⟨rfl, not_rejected_iff.2 ⟨h.le.1, h.le.2.1, h.le.2.2, rfl, rfl⟩⟩
  · rintro ⟨rfl, h⟩
    exact lenient_of_not_rejected h

/-! ### Items -/

theorem valueOf_lt (h : valueOf s ≤ 65535) : valueOf s < 2 ^ 32 := Nat.lt_of_le_of_lt h (by decide)

theorem toNat_valueOf (hle : valueOf s ≤ 65535) : (BitVec.ofNat 32 (valueOf s)).toNat = valueOf s :=
  (BitVec.toNat_ofNat _ _).trans (Nat.mod_eq_of_lt (valueOf_lt hle))

/-- What a list of ports is to be can be read. -/
theorem PortRange.Item.lenient (h : Item s r) : Lenient s r := by
  match h with
  | .single hdigits hle =>
    refine .single (hdigits.reads (valueOf_lt hle)) (fun hdash ↦ ?_)
      ((toNat_valueOf hle).trans_le hle)
    exact absurd (hdigits.isDigit 45 hdash) (by decide)
  | .range hlow hhigh hle hhigh_le =>
    have hlow_le := hle.trans hhigh_le
    have hdash : isSpace 45 = false ∧ isDigit 45 = false := by decide
    exact .range (hlow.reads (valueOf_lt hlow_le)) spaces_nil hdash.1 (stops_cons hdash.2)
      (hhigh.reads (valueOf_lt hhigh_le)) (List.mem_append_right _ List.mem_cons_self)
      ((toNat_valueOf hlow_le).trans_le hlow_le) ((toNat_valueOf hhigh_le).trans_le hhigh_le)

/-- A range that is written as it should be is not empty. -/
theorem PortRange.Item.min_le_max (h : Item s r) : r.min.toNat ≤ r.max.toNat := by
  match h with
  | .single hdigits hle => exact le_rfl
  | .range hlow hhigh hle hhigh_le =>
    show (BitVec.ofNat 32 _).toNat ≤ (BitVec.ofNat 32 _).toNat
    rw [toNat_valueOf (hle.trans hhigh_le), toNat_valueOf hhigh_le]
    exact hle

/-! ### Lists -/

/-- A lenient item adds its range, and the loop goes on. -/
theorem addPortRanges_cons_of_lenient (h : PortRange.Lenient s r) :
    addPortRanges (s :: items) list = addPortRanges items (list ++ [r]) := by
  obtain ⟨rfl, hnot⟩ := lenient_iff.1 h
  exact if_neg hnot

/-- All items are lenient: their ranges are added. -/
theorem addPortRanges_of_forall₂ (h : List.Forall₂ PortRange.Lenient items ranges) :
    addPortRanges items list = (.ok (), list ++ ranges) := by
  induction h generalizing list with
  | nil => rw [addPortRanges, List.append_nil]
  | cons hitem _ ih =>
    rw [addPortRanges_cons_of_lenient hitem, ih, List.append_assoc]
    rfl

/-- An item is not lenient: it, or one before it, is rejected. -/
theorem addPortRanges_of_exists (h : ∃ item ∈ items, ¬ ∃ range, PortRange.Lenient item range) :
    ∃ e, (addPortRanges items list).1 = .error e := by
  induction items generalizing list with
  | nil =>
    obtain ⟨item, hitem, -⟩ := h
    exact absurd hitem List.not_mem_nil
  | cons s items ih =>
    by_cases hlenient : ∃ range, PortRange.Lenient s range
    · obtain ⟨range, hrange⟩ := hlenient
      rw [addPortRanges_cons_of_lenient hrange]
      refine ih ?_
      obtain ⟨item, hitem, hnot⟩ := h
      rcases List.mem_cons.1 hitem with rfl | hitem
      · exact absurd ⟨range, hrange⟩ hnot
      · exact ⟨item, hitem, hnot⟩
    · have hrejected : Rejected s (readPortRange s).1 (readPortRange s).2 :=
        not_not.1 fun hnot ↦ hlenient ⟨_, lenient_of_not_rejected hnot⟩
      exact ⟨_, congrArg Prod.fst (if_pos hrejected)⟩

theorem exists_forall₂ {P : Bytes → PortRange → Prop} (h : ∀ item ∈ items, ∃ range, P item range) :
    ∃ ranges, List.Forall₂ P items ranges := by
  induction items with
  | nil => exact ⟨[], .nil⟩
  | cons s items ih =>
    obtain ⟨⟨range, hrange⟩, hitems⟩ := List.forall_mem_cons.1 h
    obtain ⟨ranges, hranges⟩ := ih hitems
    exact ⟨range :: ranges, .cons hrange hranges⟩

/-- The list is split at its commas, and nothing is trimmed. -/
theorem splitToken_eq_portItems (string : Bytes) :
    splitToken string [44] false false = portItems string := by
  have hcomma : ∀ c : UInt8, ([44] : Bytes).contains c = decide (c = 44) := by
    intro c
    rw [List.contains_cons, List.contains_nil, Bool.or_false]
    rfl
  have hempty : ∀ item : Bytes, (!item.isEmpty) = decide (item ≠ []) := by
    intro item
    match item with
    | [] => rfl
    | _ :: _ => rfl
  show (string.splitOnP fun c ↦ ([44] : Bytes).contains c).filter (fun item ↦ !item.isEmpty) = _
  simp only [hcomma, hempty]
  rfl

theorem contains_iff {port : BitVec 32} :
    range.contains port = true ↔ range.min.toNat ≤ port.toNat ∧ port.toNat ≤ range.max.toNat := by
  rw [PortRange.contains, decide_eq_true_iff, ge_iff_le, BitVec.le_def, BitVec.le_def]

/-- The ports in the ranges. -/
theorem portInRangeList_iff {address : Instance} :
    portInRangeList address ranges = true ↔
      ∃ ip, address.ip = some ip ∧
        ∃ range ∈ ranges, range.min.toNat ≤ ip.port.toNat ∧ ip.port.toNat ≤ range.max.toNat := by
  have hip (ip : Ip) : (ranges.any fun p ↦ (some ip).any fun ip ↦ p.contains ip.port) = true ↔
      ∃ ip', some ip = some ip' ∧
        ∃ range ∈ ranges, range.min.toNat ≤ ip'.port.toNat ∧ ip'.port.toNat ≤ range.max.toNat := by
    rw [List.any_eq_true]
    simp only [Option.any_some, contains_iff, Option.some.injEq, exists_eq_left']
  have hnone : false = true ↔ ∃ ip : Ip, none = some ip ∧
      ∃ range ∈ ranges, range.min.toNat ≤ ip.port.toNat ∧ ip.port.toNat ≤ range.max.toNat :=
    ⟨fun h ↦ absurd h Bool.false_ne_true, fun ⟨ip, h, _⟩ ↦ absurd h.symm (Option.some_ne_none ip)⟩
  match address with
  | .ipv4 i => exact hip (.v4 i)
  | .ipv6 i => exact hip (.v6 i)
  | .pipe _ => exact hnone
  | .envoyInternal _ => exact hnone

/-! ### What is to be accepted -/

/-- All items are items of a list of ports. -/
theorem parsesPortRanges_of_forall (h : ∀ item ∈ portItems string, ∃ range,
      PortRange.Item item range) :
    ParsesPortRanges string := by
  obtain ⟨ranges, hranges⟩ := exists_forall₂ h
  have hparse (list : List PortRange) : parsePortRangeList string list =
      (.ok (), list ++ ranges) := by
    rw [parsePortRangeList, splitToken_eq_portItems]
    exact addPortRanges_of_forall₂ (hranges.imp fun _ _ ↦ PortRange.Item.lenient)
  refine ⟨fun list ↦ ?_, fun _ ↦ ⟨ranges, hranges, fun list ↦ congrArg Prod.snd (hparse list), ?_⟩⟩
  · rw [hparse]
    refine iff_of_false ?_ fun ⟨item, hitem, hnot⟩ ↦ hnot (h item hitem)
    rintro ⟨e, ⟨⟩⟩
  · intro address
    rw [hparse]
    exact portInRangeList_iff

/-- An item is not even lenient. -/
theorem parsesPortRanges_of_exists (h : ∃ item ∈ portItems string, ¬ ∃ range,
      PortRange.Lenient item range) :
    ParsesPortRanges string := by
  have hthrows (list : List PortRange) : ∃ e, (parsePortRangeList string list).1 = .error e := by
    rw [parsePortRangeList, splitToken_eq_portItems]
    exact addPortRanges_of_exists h
  obtain ⟨item, hitem, hnot⟩ := h
  refine ⟨fun list ↦ iff_of_true (hthrows list) ⟨item, hitem, fun ⟨range, hrange⟩ ↦ ?_⟩,
    fun hok ↦ ?_⟩
  · exact hnot ⟨range, hrange.lenient⟩
  · obtain ⟨e, he⟩ := hthrows []
    exact absurd he (hok [] e)

/-- Lenient items are accepted, so they are to be items of a list of ports. -/
theorem forall_item_of_parsesPortRanges (h : ParsesPortRanges string)
    (hlenient : ∀ item ∈ portItems string, ∃ range, PortRange.Lenient item range) :
    ∀ item ∈ portItems string, ∃ range, PortRange.Item item range := by
  obtain ⟨ranges, hranges⟩ := exists_forall₂ hlenient
  have hparse : parsePortRangeList string [] = (.ok (), [] ++ ranges) := by
    rw [parsePortRangeList, splitToken_eq_portItems]
    exact addPortRanges_of_forall₂ hranges
  intro item hitem
  by_contra hnot
  obtain ⟨e, he⟩ := (h.throws_iff []).2 ⟨item, hitem, hnot⟩
  rw [hparse] at he
  cases he

/-- **A list of ports is parsed as it should be** unless all its items are lenient and not all are
what they should be. -/
theorem parsesPortRanges_iff (string : Bytes) :
    ParsesPortRanges string ↔
      (∀ item ∈ portItems string, ∃ range, PortRange.Item item range) ∨
        ∃ item ∈ portItems string, ¬ ∃ range, PortRange.Lenient item range := by
  constructor
  · intro h
    by_cases hlenient : ∀ item ∈ portItems string, ∃ range, PortRange.Lenient item range
    · exact Or.inl (forall_item_of_parsesPortRanges h hlenient)
    · simp only [not_forall] at hlenient
      obtain ⟨item, hitem, hnot⟩ := hlenient
      exact Or.inr ⟨item, hitem, hnot⟩
  · rintro (h | h)
    · exact parsesPortRanges_of_forall h
    · exact parsesPortRanges_of_exists h

/-- The range `2-1` is accepted. -/
theorem not_parsesPortRanges_reversed : ¬ ParsesPortRanges [50, 45, 49] := by
  intro h
  have hread : (readPortRange [50, 45, 49]).1 = ⟨2, 1⟩ ∧
      ¬ Rejected [50, 45, 49] (readPortRange [50, 45, 49]).1
        (readPortRange [50, 45, 49]).2 := by decide
  have hitems : portItems [50, 45, 49] = [[50, 45, 49]] := by decide
  have hlenient : ∀ item ∈ portItems [50, 45, 49], ∃ range, PortRange.Lenient item range := by
    rw [hitems, List.forall_mem_singleton]
    exact ⟨_, lenient_iff.2 hread⟩
  have hmem : [50, 45, 49] ∈ portItems [50, 45, 49] := hitems ▸ List.mem_cons_self
  obtain ⟨range, hrange⟩ := forall_item_of_parsesPortRanges h hlenient _ hmem
  have hle := hrange.min_le_max
  rw [← (lenient_iff.1 hrange.lenient).1, hread.1] at hle
  exact absurd hle (by decide)

end TcpServer.Network
