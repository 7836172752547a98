import TcpServer.Lib.Endian
import TcpServer.Lib.PrefixCode

/-!
# Hash keys of socket options

Every option of a connection appends its level, its number and its value to the key under which the
connection is pooled. The level and the number have four bytes each, but the size of the value is
not in the key. So the key cuts back into options where the size of a value is fixed by the level
and the number (`hashKeys_injOn_of_sized`), while in general the bytes of a long value can be read
as further options: only a list whose key has fewer than sixteen bytes is told from every other
(`separated_iff_short`).

Whether two given lists are told apart has an exact condition as well: they are not, if and only if
after a common beginning an option of the one has the value of an option of the other as the
beginning of its own, and the rest of that value is the bytes of the next options (`RunsInto`). The
general facts are those of codes whose words may begin with one another; here the words are the
layouts of single options.
-/

namespace TcpServer.Network

open Endian PrefixCode

/-- The arguments of `setsockopt`, without the text that names them in the log. -/
@[ext]
structure SocketOptionName where
  /-- The protocol, such as `SOL_SOCKET` or `IPPROTO_IP`. -/
  level : BitVec 32
  /-- The number of the option in the protocol. -/
  option : BitVec 32
  deriving DecidableEq

/-- `optname` is empty where the platform does not have the option. -/
@[ext]
structure SocketOptionImpl where
  /-- The level and the number of the option, if the platform has it. -/
  optname : Option SocketOptionName
  /-- The bytes that `setsockopt` is given. -/
  value : List (BitVec 8)
  deriving DecidableEq

/-- The bytes of an `int` are pushed in the order of its memory. -/
def pushScalarToByteVector (val : BitVec 32) (bytes : List (BitVec 8)) : List (BitVec 8) :=
  (bytesOf 4 val.toNat).foldl (fun bytes byte ↦ bytes.concat byte) bytes

namespace SocketOptionImpl

/-- `SocketOptionImpl::isSupported`. -/
def isSupported (o : SocketOptionImpl) : Bool := o.optname.isSome

/-- `SocketOptionImpl::hashKey`. An option that the platform does not have adds nothing. -/
def hashKey (o : SocketOptionImpl) (key : List (BitVec 8)) : List (BitVec 8) :=
  match o.optname with
  | some name =>
    pushScalarToByteVector name.option (pushScalarToByteVector name.level key) ++ o.value
  | none => key

end SocketOptionImpl

/-- An option that the platform has. -/
structure SupportedOption extends SocketOptionImpl where
  /-- The platform has the option. -/
  supported : toSocketOptionImpl.isSupported

/-- The options of a connection append to the key in turn. -/
def hashKeys (key : List (BitVec 8)) (os : List SupportedOption) : List (BitVec 8) :=
  os.foldl (fun key o ↦ o.hashKey key) key

/-! ### The layout of an option -/

namespace SupportedOption

/-- The level and the number of a supported option. -/
def name (o : SupportedOption) : SocketOptionName := o.optname.get o.supported

/-- The level of a supported option. -/
def level (o : SupportedOption) : BitVec 32 := o.name.level

/-- The number of a supported option. -/
def option (o : SupportedOption) : BitVec 32 := o.name.option

/-- The option with this level, number and value. -/
def of (level option : BitVec 32) (value : List (BitVec 8)) : SupportedOption where
  optname := some { level, option }
  value := value
  supported := rfl

/-- The level, the number, the value. -/
def layout (o : SupportedOption) : List (BitVec 8) :=
  bytesOf 4 o.level.toNat ++ (bytesOf 4 o.option.toNat ++ o.value)

variable {o o' : SupportedOption} {level option : BitVec 32} {value : List (BitVec 8)}

@[simp] theorem level_of : (of level option value).level = level := rfl

@[simp] theorem option_of : (of level option value).option = option := rfl

@[simp] theorem value_of : (of level option value).value = value := rfl

theorem layout_of : (of level option value).layout =
    bytesOf 4 level.toNat ++ (bytesOf 4 option.toNat ++ value) := rfl

theorem optname_eq (o : SupportedOption) : o.optname = some o.name :=
  (Option.some_get o.supported).symm

/-- An option is its level, its number and its value. -/
theorem eq_iff : o = o' ↔ o.level = o'.level ∧ o.option = o'.option ∧ o.value = o'.value := by
  constructor
  · rintro rfl
    exact ⟨rfl, rfl, rfl⟩
  · rintro ⟨hlevel, hoption, hvalue⟩
    have hname : o.name = o'.name := SocketOptionName.ext hlevel hoption
    have hopt : o.optname = o'.optname := by rw [o.optname_eq, o'.optname_eq, hname]
    cases o
    cases o'
    congr
    exact SocketOptionImpl.ext hopt hvalue

/-- Eight bytes and the value. -/
theorem length_layout (o : SupportedOption) : o.layout.length = 8 + o.value.length := by
  rw [layout, List.length_append, List.length_append, length_bytesOf, length_bytesOf]
  omega

theorem layout_ne_nil (o : SupportedOption) : o.layout ≠ [] := by
  intro h
  have hlen := o.length_layout
  rw [h, List.length_nil] at hlen
  omega

/-- The bytes of an `int` determine it. -/
theorem bytesOf_inj {x y : BitVec 32} : bytesOf 4 x.toNat = bytesOf 4 y.toNat ↔ x = y := by
  constructor
  · intro h
    have hnum := congrArg numberOf h
    have hx := x.isLt
    have hy := y.isLt
    rw [numberOf_bytesOf, numberOf_bytesOf] at hnum
    exact BitVec.eq_of_toNat_eq (by omega)
  · rintro rfl
    rfl

/-- One layout goes on where the other ends exactly when the options have one name and the values
are related so. -/
theorem layout_eq_append_iff {extra : List (BitVec 8)} :
    o'.layout = o.layout ++ extra ↔
      o.level = o'.level ∧ o.option = o'.option ∧ o'.value = o.value ++ extra := by
  have hlen : ∀ x y : BitVec 32, (bytesOf 4 x.toNat).length = (bytesOf 4 y.toNat).length :=
    fun x y ↦ by rw [length_bytesOf, length_bytesOf]
  constructor
  · intro h
    rw [layout, layout, List.append_assoc, List.append_assoc] at h
    obtain ⟨hlevel, h⟩ := List.append_inj h (hlen _ _)
    obtain ⟨hoption, hvalue⟩ := List.append_inj h (hlen _ _)
    exact ⟨(bytesOf_inj.1 hlevel).symm, (bytesOf_inj.1 hoption).symm, hvalue⟩
  · rintro ⟨hlevel, hoption, hvalue⟩
    rw [layout, layout, hlevel, hoption, hvalue, List.append_assoc, List.append_assoc]

/-- Any eight bytes are a level and a number. -/
theorem exists_layout_eq {bytes : List (BitVec 8)} (h : 8 ≤ bytes.length) :
    ∃ o : SupportedOption, o.layout = bytes := by
  have hword : ∀ w : List (BitVec 8), w.length = 4 →
      bytesOf 4 (BitVec.ofNat 32 (numberOf w)).toNat = w := by
    intro w hw
    have hlt := numberOf_lt w
    rw [hw] at hlt
    have htoNat : (BitVec.ofNat 32 (numberOf w)).toNat = numberOf w :=
      Nat.mod_eq_of_lt hlt
    rw [htoNat, ← hw, bytesOf_numberOf]
  refine ⟨of (.ofNat 32 (numberOf (bytes.take 4))) (.ofNat 32 (numberOf ((bytes.drop 4).take 4)))
    ((bytes.drop 4).drop 4), ?_⟩
  rw [layout_of, hword _ (by rw [List.length_take]; omega),
    hword _ (by rw [List.length_take, List.length_drop]; omega), List.take_append_drop,
    List.take_append_drop]

end SupportedOption

/-! ### The key

The first four bytes that an option appends are its level and the next four its number, in the order
of memory. What was in the key before stays in front of them.
-/

variable {key : List (BitVec 8)} {os os' : List SupportedOption}

/-- An `int` is pushed behind what is there. -/
theorem pushScalarToByteVector_eq (val : BitVec 32) (bytes : List (BitVec 8)) :
    pushScalarToByteVector val bytes = bytes ++ bytesOf 4 val.toNat := by
  rw [pushScalarToByteVector]
  induction bytesOf 4 val.toNat generalizing bytes with
  | nil => rw [List.foldl_nil, List.append_nil]
  | cons byte rest ih => rw [List.foldl_cons, ih, List.concat_eq_append, List.append_assoc]; rfl

/-- An option appends its layout and leaves the key alone. -/
theorem SupportedOption.hashKey_eq (o : SupportedOption) (key : List (BitVec 8)) :
    o.hashKey key = key ++ o.layout := by
  rw [SocketOptionImpl.hashKey, o.optname_eq]
  show pushScalarToByteVector o.option (pushScalarToByteVector o.level key) ++ o.value =
    key ++ o.layout
  rw [pushScalarToByteVector_eq, pushScalarToByteVector_eq, SupportedOption.layout,
    List.append_assoc, List.append_assoc]

/-- The options append their layouts in turn. -/
theorem hashKeys_eq (key : List (BitVec 8)) (os : List SupportedOption) :
    hashKeys key os = key ++ os.flatMap SupportedOption.layout := by
  induction os generalizing key with
  | nil => exact (List.append_nil key).symm
  | cons o os ih =>
    show hashKeys (o.hashKey key) os = _
    rw [ih, o.hashKey_eq, List.flatMap_cons, List.append_assoc]

theorem hashKeys_eq_iff : hashKeys key os = hashKeys key os' ↔
    os.flatMap SupportedOption.layout = os'.flatMap SupportedOption.layout := by
  rw [hashKeys_eq, hashKeys_eq, List.append_cancel_left_eq]

/-- Where the size of a value follows from the level and the number, the key tells the lists
apart. -/
theorem hashKeys_injOn_of_sized (size : BitVec 32 → BitVec 32 → ℕ) (key : List (BitVec 8)) :
    Set.InjOn (hashKeys key) {os | ∀ o ∈ os, o.value.length = size o.level o.option} := by
  have hfree : PrefixFreeOn SupportedOption.layout
      {o : SupportedOption | o.value.length = size o.level o.option} := by
    refine ⟨fun o _ ↦ o.layout_ne_nil, ?_⟩
    rintro o ho o' ho' ⟨extra, hextra⟩
    obtain ⟨hlevel, hoption, hvalue⟩ := SupportedOption.layout_eq_append_iff.1 hextra.symm
    have hlen : o'.value.length = o.value.length := by
      rw [ho, ho', hlevel, hoption]
    refine SupportedOption.eq_iff.2 ⟨hlevel, hoption, ?_⟩
    rw [hvalue, List.length_append, Nat.add_eq_left] at hlen
    rw [hvalue, List.eq_nil_of_length_eq_zero hlen, List.append_nil]
  intro os hos os' hos' h
  exact hfree.flatMap_injOn hos hos' (hashKeys_eq_iff.1 h)

/-! ### Keys that run into each other -/

/-- The lists first differ in two options of one level and number, the value of the second one is
longer by `extra`, and the options behind the first one make up for it. -/
def RunsInto (os os' : List SupportedOption) : Prop :=
  ∃ common o o' rest rest' extra, os = common ++ o :: rest ∧ os' = common ++ o' :: rest' ∧
    o.level = o'.level ∧ o.option = o'.option ∧ extra ≠ [] ∧ o'.value = o.value ++ extra ∧
    rest.flatMap SupportedOption.layout = extra ++ rest'.flatMap SupportedOption.layout

/-- This is the overlap of two sequences of words of a code, with the layouts for words. -/
theorem runsInto_iff_overlap : RunsInto os os' ↔ Overlap SupportedOption.layout os os' := by
  constructor
  · rintro ⟨common, o, o', rest, rest', extra, hos, hos', hlevel, hoption, hextra, hvalue, hrest⟩
    refine ⟨common, o, o', rest, rest', extra, hos, hos', ?_,
      SupportedOption.layout_eq_append_iff.2 ⟨hlevel, hoption, hvalue⟩, hrest⟩
    rintro rfl
    exact hextra (List.self_eq_append_right.1 hvalue)
  · rintro ⟨common, o, o', rest, rest', extra, h⟩
    obtain ⟨hlevel, hoption, hvalue⟩ := SupportedOption.layout_eq_append_iff.1 h.word_eq
    refine ⟨common, o, o', rest, rest', extra, h.left_eq, h.right_eq, hlevel, hoption, ?_, hvalue,
      h.rest_eq⟩
    rintro rfl
    rw [List.append_nil] at hvalue
    exact h.ne (SupportedOption.eq_iff.2 ⟨hlevel, hoption, hvalue.symm⟩)

/-- The key tells these two lists apart. -/
def Separated (key : List (BitVec 8)) (os os' : List SupportedOption) : Prop :=
  hashKeys key os = hashKeys key os' → os = os'

/-- A key tells two lists apart exactly if neither runs into the other. -/
theorem separated_iff_not_runsInto :
    Separated key os os' ↔ ¬RunsInto os os' ∧ ¬RunsInto os' os := by
  rw [runsInto_iff_overlap, runsInto_iff_overlap, ← not_or, Separated, hashKeys_eq_iff]
  constructor
  · rintro h (hover | hover)
    · exact hover.ne (h hover.flatMap_eq)
    · exact hover.ne (h hover.flatMap_eq.symm).symm
  · intro h heq
    by_contra hne
    exact h (exists_overlap (fun o _ ↦ o.layout_ne_nil) heq hne)

/-- At most one option, with a value that has no room for a level and a number. -/
def Short (os : List SupportedOption) : Prop := os.length ≤ 1 ∧ ∀ o ∈ os, o.value.length < 8

/-- Two options are also one with a longer value, and a value of eight bytes also has an option in
it. -/
theorem exists_flatMap_layout_eq (h : ¬Short os) :
    ∃ os', os' ≠ os ∧ os'.flatMap SupportedOption.layout = os.flatMap SupportedOption.layout := by
  match os with
  | [] => exact absurd ⟨Nat.zero_le 1, fun o ho ↦ absurd ho List.not_mem_nil⟩ h
  | [o] =>
    have hvalue : 8 ≤ o.value.length := by
      by_contra hlt
      refine h ⟨Nat.le_refl 1, fun o' ho' ↦ ?_⟩
      rw [List.mem_singleton.1 ho']
      omega
    obtain ⟨o', ho'⟩ := SupportedOption.exists_layout_eq hvalue
    have hword : o.layout = (SupportedOption.of o.level o.option []).layout ++ o.value :=
      SupportedOption.layout_eq_append_iff.2 ⟨rfl, rfl, rfl⟩
    refine ⟨[.of o.level o.option [], o'], fun heq ↦ absurd (congrArg List.length heq) (by simp),
      ?_⟩
    rw [List.flatMap_cons, List.flatMap_singleton, List.flatMap_singleton, ho', hword]
  | o :: o' :: rest =>
    have hword : (SupportedOption.of o.level o.option (o.value ++ o'.layout)).layout =
        o.layout ++ o'.layout :=
      SupportedOption.layout_eq_append_iff.2 ⟨rfl, rfl, rfl⟩
    refine ⟨.of o.level o.option (o.value ++ o'.layout) :: rest,
      fun heq ↦ absurd (congrArg List.length heq) (by simp), ?_⟩
    rw [List.flatMap_cons, List.flatMap_cons, List.flatMap_cons, hword, List.append_assoc]

/-- A short list runs into no other, and no other into it. -/
theorem Short.not_runsInto (h : Short os) : ¬RunsInto os os' ∧ ¬RunsInto os' os := by
  constructor
  · rintro ⟨common, o, o', rest, rest', extra, rfl, -, -, -, hextra, -, hrest⟩
    have hlen := h.1
    rw [List.length_append, List.length_cons] at hlen
    rw [List.eq_nil_of_length_eq_zero (show rest.length = 0 by omega), List.flatMap_nil] at hrest
    exact hextra (List.append_eq_nil_iff.1 hrest.symm).1
  · rintro ⟨common, o, o', rest, rest', extra, -, rfl, -, -, hextra, hvalue, hrest⟩
    have hlen := h.1
    rw [List.length_append, List.length_cons] at hlen
    rw [List.eq_nil_of_length_eq_zero (show rest'.length = 0 by omega), List.flatMap_nil,
      List.append_nil] at hrest
    have hsize := h.2 o' (by simp)
    rw [hvalue, List.length_append, ← hrest] at hsize
    match rest with
    | [] => exact hextra hrest.symm
    | last :: rest =>
      rw [List.flatMap_cons, List.length_append, last.length_layout] at hsize
      omega

/-- Appending an option keeps what is in the key. Two lists are told apart unless one runs into the
other, and a list is told apart from every other exactly when it is short. -/
theorem hashKeys_separated (key : List (BitVec 8)) (os : List SupportedOption) :
    key <+: hashKeys key os ∧
      (∀ os', Separated key os os' ↔ ¬RunsInto os os' ∧ ¬RunsInto os' os) ∧
      ((∀ os', Separated key os os') ↔ Short os) := by
  refine ⟨⟨_, (hashKeys_eq key os).symm⟩, fun os' ↦ separated_iff_not_runsInto, ?_, ?_⟩
  · intro h
    by_contra hshort
    obtain ⟨os', hne, heq⟩ := exists_flatMap_layout_eq hshort
    exact hne (h os' (hashKeys_eq_iff.2 heq.symm)).symm
  · exact fun h os' ↦ separated_iff_not_runsInto.2 h.not_runsInto

/-- An option with no value followed by another one, and the first one with the second as its
value. -/
theorem hashKeys_eq_of_straddle :
    let os : List SupportedOption := [.of 1 9 [], .of 6 1 []]
    let os' : List SupportedOption := [.of 1 9 [6, 0, 0, 0, 1, 0, 0, 0]]
    hashKeys [] os = hashKeys [] os' ∧ os ≠ os' :=
  ⟨by decide, fun h ↦ absurd (congrArg List.length h) (by decide)⟩

end TcpServer.Network
