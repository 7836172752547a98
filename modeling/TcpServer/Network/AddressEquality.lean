import TcpServer.Network.AddressText
import Mathlib.Data.List.Forall2

/-!
# Equality of addresses

The classes of addresses compare in different ways: the two IP classes by what they store, after a
dynamic cast; an internal address by its text, after a test of the type; and a pipe by its text
alone, whatever the other address is. Text is enough as long as it tells endpoints apart, which it
need not.

Which endpoint an address denotes is read off what it stores (`SameEndpoint`): address, port and
scope; all bytes of `sun_path` and whether they are in the abstract namespace; the two ids. What the
text of a pipe shows of it (`PipeInstance.shown`) is less: a pathname ends at its first NUL, an
abstract name has `@` for every NUL and ends with its length, and where a constructor has failed
there is no text at all. The text of an internal address is its two ids joined by a slash, which
they may contain themselves.

The pairs that `operator==` gets wrong are listed by what the two addresses store (`Confusable`):

* two pipes with different bytes or in different namespaces, of which the same is shown, where `@`
  and NUL are not told apart;
* a pipe at the path that is the text of an IP address or of an internal address;
* two internal addresses of which one has moved a slash from its second id to its first.

The main result, `lawful_iff`, is that these pairs are all that is wrong with the operator. One
direction rests on `Confusable.eq`, that such a pair compares equal; the other on
`sameEndpoint_of_eq`, that any other pair which compares equal denotes one endpoint, and there the
laws of an equivalence are those of equality (`eq_symm_of_sameEndpoint`,
`eq_trans_of_sameEndpoint`). Both need to know which text a constructor leaves in an address
(`Constructed`, `friendlyName_pipe`).
-/

namespace TcpServer.Network

namespace Instance

/-- The same endpoint: the same address, port and scope; the same bytes of `sun_path` in the same
namespace; the same ids. -/
def SameEndpoint : Instance → Instance → Prop
  | ipv4 i, ipv4 j => i.address.sinAddr = j.address.sinAddr ∧ i.port = j.port
  | ipv6 i, ipv6 j =>
    i.address.sin6Addr = j.address.sin6Addr ∧ i.port = j.port ∧
      i.address.sin6ScopeId = j.address.sin6ScopeId
  | pipe i, pipe j =>
    i.address.sunPath = j.address.sunPath ∧ i.abstractNamespace = j.abstractNamespace
  | envoyInternal i, envoyInternal j => i.addressId = j.addressId ∧ i.endpointId = j.endpointId
  | _, _ => False

/-- What `operator==` should be on a set of addresses: an equivalence that tells endpoints apart. -/
structure Lawful (addresses : Set Instance) : Prop where
  /-- Every address is equal to itself. -/
  refl : ∀ x ∈ addresses, x.eq x = true
  /-- The order of the operands does not matter. -/
  symm : ∀ x ∈ addresses, ∀ y ∈ addresses, x.eq y = true → y.eq x = true
  /-- Two addresses that are equal to a third are equal. -/
  trans : ∀ x ∈ addresses, ∀ y ∈ addresses, ∀ z ∈ addresses,
    x.eq y = true → y.eq z = true → x.eq z = true
  /-- Equal addresses are of one type and denote one endpoint. -/
  sound : ∀ x ∈ addresses, ∀ y ∈ addresses, x.eq y = true → x.type = y.type ∧ SameEndpoint x y

theorem type_eq_of_sameEndpoint {x y : Instance} (h : SameEndpoint x y) : x.type = y.type := by
  cases x <;> cases y <;> first | rfl | exact h.elim

/-- Equality of an address with itself never goes wrong. -/
theorem eq_self (x : Instance) : x.eq x = true := by
  cases x with
  | ipv4 i => exact decide_eq_true ⟨rfl, rfl⟩
  | ipv6 i => exact decide_eq_true ⟨rfl, rfl, rfl⟩
  | pipe i => exact decide_eq_true rfl
  | envoyInternal i => exact decide_eq_true ⟨rfl, rfl⟩

/-- Between addresses of one class `operator==` compares values. -/
theorem eq_symm_of_sameEndpoint {x y : Instance} (h : SameEndpoint x y) (heq : x.eq y = true) :
    y.eq x = true := by
  cases x with
  | ipv4 i =>
    cases y with
    | ipv4 j => exact decide_eq_true ⟨h.1.symm, h.2.symm⟩
    | _ => exact h.elim
  | ipv6 i =>
    cases y with
    | ipv6 j => exact decide_eq_true ⟨h.1.symm, h.2.1.symm, h.2.2.symm⟩
    | _ => exact h.elim
  | pipe i =>
    cases y with
    | pipe j =>
      have htext : i.friendlyName = j.friendlyName := of_decide_eq_true heq
      exact decide_eq_true htext.symm
    | _ => exact h.elim
  | envoyInternal i =>
    cases y with
    | envoyInternal j => exact decide_eq_true ⟨rfl, (of_decide_eq_true heq).2.symm⟩
    | _ => exact h.elim

/-- Nor does transitivity fail there. -/
theorem eq_trans_of_sameEndpoint {x y z : Instance} (hxy : SameEndpoint x y)
    (hyz : SameEndpoint y z)
    (heq : x.eq y = true) (heq' : y.eq z = true) : x.eq z = true := by
  cases x with
  | ipv4 i =>
    cases y with
    | ipv4 j =>
      cases z with
      | ipv4 k => exact decide_eq_true ⟨hxy.1.trans hyz.1, hxy.2.trans hyz.2⟩
      | _ => exact hyz.elim
    | _ => exact hxy.elim
  | ipv6 i =>
    cases y with
    | ipv6 j =>
      cases z with
      | ipv6 k =>
        exact decide_eq_true ⟨hxy.1.trans hyz.1, hxy.2.1.trans hyz.2.1, hxy.2.2.trans hyz.2.2⟩
      | _ => exact hyz.elim
    | _ => exact hxy.elim
  | pipe i =>
    cases y with
    | pipe j =>
      have htext : i.friendlyName = j.friendlyName := of_decide_eq_true heq
      have htext' : j.friendlyName = z.asString := of_decide_eq_true heq'
      exact decide_eq_true (htext.trans htext')
    | _ => exact hxy.elim
  | envoyInternal i =>
    cases y with
    | envoyInternal j =>
      obtain ⟨htype, htext'⟩ := of_decide_eq_true heq'
      exact decide_eq_true ⟨htype, (of_decide_eq_true heq).2.trans htext'⟩
    | _ => exact hxy.elim

theorem SameEndpoint.symm {x y : Instance} (h : SameEndpoint x y) : SameEndpoint y x := by
  match x, y, h with
  | .ipv4 _, .ipv4 _, ⟨ha, hp⟩ => exact ⟨ha.symm, hp.symm⟩
  | .ipv6 _, .ipv6 _, ⟨ha, hp, hs⟩ => exact ⟨ha.symm, hp.symm, hs.symm⟩
  | .pipe _, .pipe _, ⟨hn, ha⟩ => exact ⟨hn.symm, ha.symm⟩
  | .envoyInternal _, .envoyInternal _, ⟨ha, he⟩ => exact ⟨ha.symm, he.symm⟩

theorem SameEndpoint.trans {x y z : Instance} (hxy : SameEndpoint x y) (hyz : SameEndpoint y z) :
    SameEndpoint x z := by
  match x, y, hxy with
  | .ipv4 _, .ipv4 _, ⟨ha, hp⟩ =>
    match z, hyz with
    | .ipv4 _, ⟨ha', hp'⟩ => exact ⟨ha.trans ha', hp.trans hp'⟩
  | .ipv6 _, .ipv6 _, ⟨ha, hp, hs⟩ =>
    match z, hyz with
    | .ipv6 _, ⟨ha', hp', hs'⟩ => exact ⟨ha.trans ha', hp.trans hp', hs.trans hs'⟩
  | .pipe _, .pipe _, ⟨hn, ha⟩ =>
    match z, hyz with
    | .pipe _, ⟨hn', ha'⟩ => exact ⟨hn.trans hn', ha.trans ha'⟩
  | .envoyInternal _, .envoyInternal _, ⟨ha, he⟩ =>
    match z, hyz with
    | .envoyInternal _, ⟨ha', he'⟩ => exact ⟨ha.trans ha', he.trans he'⟩

/-- An IP address is equal to the addresses of its own endpoint and to no others. -/
theorem eq_iff_sameEndpoint {x y : Instance} (hx : x.type = .ip) :
    x.eq y = true ↔ SameEndpoint x y := by
  cases x with
  | ipv4 i =>
    cases y with
    | ipv4 j => exact decide_eq_true_iff
    | _ => exact iff_of_false Bool.false_ne_true id
  | ipv6 i =>
    cases y with
    | ipv6 j => exact decide_eq_true_iff
    | _ => exact iff_of_false Bool.false_ne_true id
  | pipe | envoyInternal => exact nomatch hx

/-! ### What the constructors leave behind -/

/-- The addresses that the constructors make. -/
inductive Constructed (libc : Libc) : Instance → Prop
  | ip (c : IpConstruction) : Constructed libc (c.build libc)
  | pipeOfSockaddr {address ssLen mode status pipe}
    (h : PipeInstance.ofSockaddr address ssLen mode = some (status, pipe)) :
    Constructed libc (.pipe pipe)
  | pipeOfPath {path mode pipe} (h : PipeInstance.ofPath path mode = some pipe) :
    Constructed libc (.pipe pipe)
  | envoyInternal (addressId endpointId : Text) :
    Constructed libc (.envoyInternal (.ofIds addressId endpointId))

end Instance

/-- The bytes of `sun_path` that the text of a pipe shows: its name, or none where the constructor
has left the text empty. -/
def PipeInstance.shown (pipe : PipeInstance) : Text :=
  if pipe.friendlyName = [] then [] else pipe.name

/-- The byte `c` of a name as it stands in a text. -/
def shownAs (c : Char) : Char := if c = nul then '@' else c

/-- Two bytes that are told apart in no text: equal ones, and `@` and NUL. -/
def Alike (c d : Char) : Prop := c = d ∨ c = nul ∧ d = '@' ∨ c = '@' ∧ d = nul

/-- A slash has moved: the second address has `m` at the end of its first id, behind a slash, and
the first has it at the front of its second id. -/
def EnvoyInternalInstance.SlashMoved (i j : EnvoyInternalInstance) : Prop :=
  ∃ m, j.addressId = i.addressId ++ '/' :: m ∧ i.endpointId = m ++ '/' :: j.endpointId

namespace Instance

/-- Two endpoints that `operator==` takes for one, the first on its left. -/
def Confusable : Instance → Instance → Prop
  | pipe i, pipe j =>
    ¬ (i.address.sunPath = j.address.sunPath ∧ i.abstractNamespace = j.abstractNamespace) ∧
      List.Forall₂ Alike i.shown j.shown
  | pipe i, ipv4 j => i.shown.map shownAs = j.friendlyName
  | pipe i, ipv6 j => i.shown.map shownAs = j.friendlyName
  | pipe i, envoyInternal j =>
    i.abstractNamespace = false ∧ i.shown = "envoy://".toList ++
      (j.addressId ++ '/' :: j.endpointId)
  | envoyInternal i, envoyInternal j => i.SlashMoved j ∨ j.SlashMoved i
  | _, _ => False

end Instance

/-- What stands in the text of a pipe, and which bytes can be shown. -/
structure PipeInstance.Shows (pipe : PipeInstance) : Prop where
  /-- The text is what is shown. -/
  text : pipe.friendlyName = pipe.shown.map shownAs
  /-- An abstract name begins with a NUL, if anything is shown of it. -/
  head_nul : pipe.abstractNamespace = true → ∀ c ∈ pipe.shown.head?, c = nul
  /-- No NUL is shown of a pathname. -/
  nul_notMem : pipe.abstractNamespace = false → nul ∉ pipe.shown

/-- Two bytes have the same character in a text exactly if they are alike. -/
theorem shownAs_eq_iff {c d : Char} : shownAs c = shownAs d ↔ Alike c d := by
  unfold shownAs Alike
  by_cases hc : c = nul <;> by_cases hd : d = nul
  · simp [hc, hd]
  · simp [hc, hd, eq_comm]
  · simp [hc, hd]
  · simp [hc, hd]

/-- Two names have the same text exactly if they are alike byte by byte. -/
theorem map_shownAs_eq_iff {s t : Text} : s.map shownAs = t.map shownAs ↔
    List.Forall₂ Alike s t := by
  have halike : Alike = fun c d ↦ shownAs c = shownAs d :=
    funext₂ fun _ _ ↦ propext shownAs_eq_iff.symm
  rw [halike, ← List.forall₂_map_right_iff, ← List.forall₂_map_left_iff, List.forall₂_eq_eq_eq]

/-- A name without a NUL is its own text. -/
theorem map_shownAs_of_notMem {s : Text} (h : nul ∉ s) : s.map shownAs = s := by
  have hid : s.map shownAs = s.map id :=
    List.map_congr_left fun c hc ↦ if_neg fun (hnul : c = nul) ↦ h (hnul ▸ hc)
  rw [hid, List.map_id]

theorem nul_notMem_cStr (s : Text) : nul ∉ cStr s := by
  intro h
  have hne : nul ≠ nul := of_decide_eq_true (List.mem_takeWhile_imp (p := (· ≠ nul)) h)
  exact hne rfl

/-- The first byte of a name stays the first however many are shown. -/
theorem eq_nul_of_mem_head?_take {s : Text} (h : s.head? = some nul) {n : ℕ} {c : Char}
    (hc : c ∈ (s.take n).head?) : c = nul := by
  match s, n with
  | d :: _, 0 => exact absurd hc (Option.not_mem_none _)
  | d :: _, n + 1 => exact (Option.some.inj hc).symm.trans (Option.some.inj h)

namespace PipeInstance

variable {pipe pipe' : PipeInstance} {address : SockaddrUn} {mode : ℕ}

/-- A pipe without a text shows nothing. -/
theorem shows_of_friendlyName_eq_nil (h : pipe.friendlyName = []) : pipe.Shows := by
  have hshown : pipe.shown = [] := if_pos h
  constructor
  · rw [hshown]
    exact h
  · rw [hshown]
    exact fun _ _ hc ↦ absurd hc (Option.not_mem_none _)
  · rw [hshown]
    exact fun _ ↦ List.not_mem_nil

/-- A pipe whose text is made of its name shows its name. -/
theorem shows_of_name (htext : pipe.friendlyName = pipe.name.map shownAs)
    (hhead : pipe.abstractNamespace = true → ∀ c ∈ pipe.name.head?, c = nul)
    (hnul : pipe.abstractNamespace = false → nul ∉ pipe.name) : pipe.Shows := by
  by_cases hempty : pipe.friendlyName = []
  · exact shows_of_friendlyName_eq_nil hempty
  · have hshown : pipe.shown = pipe.name := if_neg hempty
    constructor <;> rw [hshown]
    · exact htext
    · exact hhead
    · exact hnul

/-- What the helper stores once the namespace has been set. -/
theorem shows_of_initHelper {status : Option Status} (hname : pipe.friendlyName = [])
    (habstract : pipe.abstractNamespace = true → address.sunPath.head? = some nul)
    (h : pipe.initHelper address mode = some (status, pipe')) : pipe'.Shows := by
  rw [initHelper] at h
  dsimp only at h
  split_ifs at h with hns hmode hlen hnul
  · -- The constructor fails before it has stored a text.
    obtain ⟨-, rfl⟩ := Prod.mk.inj (Option.some.inj h)
    exact shows_of_friendlyName_eq_nil hname
  · obtain ⟨-, rfl⟩ := Prod.mk.inj (Option.some.inj h)
    refine shows_of_name ?_ (fun _ c hc ↦ ?_) fun hpath ↦ absurd (hns.symm.trans hpath) (by decide)
    · rw [name, if_pos hns]
      rfl
    · rw [name, if_pos hns] at hc
      exact eq_nul_of_mem_head?_take (habstract hns) hc
  · obtain ⟨-, rfl⟩ := Prod.mk.inj (Option.some.inj h)
    have hname : PipeInstance.name { pipe with
        address, friendlyName := cStr address.sunPath, mode } =
        cStr address.sunPath := if_neg hns
    refine shows_of_name ?_ (fun h ↦ absurd h hns) fun _ ↦ ?_
    · rw [hname, map_shownAs_of_notMem (nul_notMem_cStr _)]
    · rw [hname]
      exact nul_notMem_cStr _

theorem shows_of_ofSockaddr {ssLen : BitVec 32} {status : Option Status}
    (h : ofSockaddr address ssLen mode = some (status, pipe)) : pipe.Shows := by
  rw [ofSockaddr] at h
  split_ifs at h with hhead
  · exact shows_of_initHelper rfl (fun _ ↦ hhead) h
  · exact shows_of_initHelper rfl (fun habstract ↦ absurd habstract Bool.false_ne_true) h

/-- A pipe made from a path shows its name, or nothing. -/
theorem shows_of_ofPath {path : Text} (h : ofPath path mode = some pipe) : pipe.Shows := by
  rw [ofPath] at h
  split_ifs at h with hhead hlen
  · obtain rfl := Option.some.inj h
    have hlength : (BitVec.ofNat 32 path.length).toNat = path.length :=
      Nat.mod_eq_of_lt (hlen.trans (by decide))
    refine shows_of_name ?_ (fun _ c hc ↦ ?_) fun hpath ↦ absurd hpath.symm Bool.false_ne_true
    · rw [name, if_pos rfl, hlength]
      rfl
    · rw [name, if_pos rfl] at hc
      exact eq_nul_of_mem_head?_take rfl hc
  · obtain rfl := Option.some.inj h
    exact shows_of_friendlyName_eq_nil rfl

end PipeInstance

namespace Instance

/-- So does every pipe that a constructor makes. -/
theorem shows_of_constructed {libc : Libc} {pipe : PipeInstance}
    (h : Constructed libc (.pipe pipe)) :
    pipe.Shows := by
  generalize hx : Instance.pipe pipe = x at h
  cases h with
  | ip c => cases c <;> exact nomatch hx
  | pipeOfSockaddr h => exact Instance.pipe.inj hx ▸ PipeInstance.shows_of_ofSockaddr h
  | pipeOfPath h => exact Instance.pipe.inj hx ▸ PipeInstance.shows_of_ofPath h
  | envoyInternal => exact nomatch hx

/-- The text of an internal address. -/
theorem friendlyName_of_constructed {libc : Libc} {i : EnvoyInternalInstance}
    (h : Constructed libc (.envoyInternal i)) :
    i.friendlyName = "envoy://".toList ++ (i.addressId ++ '/' :: i.endpointId) := by
  generalize hx : Instance.envoyInternal i = x at h
  cases h with
  | ip c => cases c <;> exact nomatch hx
  | pipeOfSockaddr | pipeOfPath => exact nomatch hx
  | envoyInternal addressId endpointId =>
    obtain rfl := Instance.envoyInternal.inj hx
    exact List.append_assoc ..

/-- Ids that are joined to one text are the same, or a slash has moved. -/
theorem append_slash_eq_iff {i j : EnvoyInternalInstance} :
    i.addressId ++ '/' :: i.endpointId = j.addressId ++ '/' :: j.endpointId ↔
      (i.addressId = j.addressId ∧ i.endpointId = j.endpointId) ∨ i.SlashMoved j ∨
        j.SlashMoved i := by
  constructor
  · intro h
    rcases List.append_eq_append_iff.1 h with ⟨m, haddress, hrest⟩ | ⟨m, haddress, hrest⟩
    · match m, hrest with
      | [], hrest =>
        rw [List.append_nil] at haddress
        exact .inl ⟨haddress.symm, (List.cons.inj hrest).2⟩
      | c :: m, hrest =>
        obtain ⟨rfl, hendpoint⟩ := List.cons.inj hrest
        exact .inr (.inl ⟨m, haddress, hendpoint⟩)
    · match m, hrest with
      | [], hrest =>
        rw [List.append_nil] at haddress
        exact .inl ⟨haddress, (List.cons.inj hrest).2.symm⟩
      | c :: m, hrest =>
        obtain ⟨rfl, hendpoint⟩ := List.cons.inj hrest
        exact .inr (.inr ⟨m, haddress, hendpoint⟩)
  · rintro (⟨haddress, hendpoint⟩ | ⟨m, haddress, hendpoint⟩ | ⟨m, haddress, hendpoint⟩)
    · rw [haddress, hendpoint]
    · rw [haddress, hendpoint, List.append_assoc]
      rfl
    · rw [haddress, hendpoint, List.append_assoc]
      rfl

/-- A slash that has moved makes the ids different. -/
theorem addressId_ne_of_slashMoved {i j : EnvoyInternalInstance} (h : i.SlashMoved j) :
    i.addressId ≠ j.addressId := by
  obtain ⟨m, haddress, -⟩ := h
  intro heq
  have hlength := congrArg List.length (heq.trans haddress)
  rw [List.length_append, List.length_cons] at hlength
  omega

/-- The text of an abstract name is not that of an internal address. -/
theorem map_shownAs_ne_envoy {pipe : PipeInstance} (hpipe : pipe.Shows)
    (habstract : pipe.abstractNamespace = true) (ids : Text) :
    pipe.shown.map shownAs ≠ "envoy://".toList ++ ids := by
  intro h
  match hshown : pipe.shown with
  | [] =>
    rw [hshown] at h
    exact nomatch h
  | c :: rest =>
    obtain rfl : c = nul := hpipe.head_nul habstract c (by rw [hshown]; rfl)
    rw [hshown] at h
    exact absurd (List.cons.inj h).1 (by decide)

/-- What is shown of a pipe is the text of an internal address exactly if it is a pathname, and that
one. -/
theorem map_shownAs_eq_envoy_iff {pipe : PipeInstance} (hpipe : pipe.Shows) (ids : Text) :
    pipe.shown.map shownAs = "envoy://".toList ++ ids ↔
      pipe.abstractNamespace = false ∧ pipe.shown = "envoy://".toList ++ ids := by
  match habstract : pipe.abstractNamespace with
  | true =>
    refine iff_of_false (map_shownAs_ne_envoy hpipe habstract ids) fun h ↦ ?_
    exact Bool.false_ne_true h.1.symm
  | false =>
    rw [map_shownAs_of_notMem (hpipe.nul_notMem habstract), and_iff_right rfl]

/-- A confusable pair compares equal. -/
theorem Confusable.eq {libc : Libc} {x y : Instance} (hx : Constructed libc x)
    (hy : Constructed libc y)
    (h : Confusable x y) : x.eq y = true := by
  match x, y, h with
  | .pipe i, .pipe j, h =>
    refine decide_eq_true ?_
    show i.friendlyName = j.friendlyName
    rw [(shows_of_constructed hx).text, (shows_of_constructed hy).text]
    exact map_shownAs_eq_iff.2 h.2
  | .pipe i, .ipv4 j, h => exact decide_eq_true ((shows_of_constructed hx).text.trans h)
  | .pipe i, .ipv6 j, h => exact decide_eq_true ((shows_of_constructed hx).text.trans h)
  | .pipe i, .envoyInternal j, h =>
    refine decide_eq_true ?_
    show i.friendlyName = j.friendlyName
    rw [(shows_of_constructed hx).text, friendlyName_of_constructed hy]
    exact (map_shownAs_eq_envoy_iff (shows_of_constructed hx) _).2 h
  | .envoyInternal i, .envoyInternal j, h =>
    refine decide_eq_true ⟨rfl, ?_⟩
    show i.friendlyName = j.friendlyName
    rw [friendlyName_of_constructed hx, friendlyName_of_constructed hy,
      append_slash_eq_iff.2 (.inr h)]

/-- A confusable pair is of two endpoints. -/
theorem Confusable.not_sameEndpoint {x y : Instance} (h : Confusable x y) : ¬ SameEndpoint x y := by
  match x, y, h with
  | .pipe i, .pipe j, h => exact h.1
  | .pipe i, .ipv4 j, h => exact id
  | .pipe i, .ipv6 j, h => exact id
  | .pipe i, .envoyInternal j, h => exact id
  | .envoyInternal i, .envoyInternal j, h =>
    rintro ⟨haddress, -⟩
    rcases h with h | h
    · exact addressId_ne_of_slashMoved h haddress
    · exact addressId_ne_of_slashMoved h haddress.symm

/-- Addresses that compare equal denote the same endpoint, unless they are confusable. -/
theorem sameEndpoint_of_eq {libc : Libc} {x y : Instance} (hx : Constructed libc x)
    (hy : Constructed libc y) (heq : x.eq y = true) (h : ¬ Confusable x y) : SameEndpoint x y := by
  match x, y, heq with
  | .ipv4 i, y, heq => exact (eq_iff_sameEndpoint rfl).1 heq
  | .ipv6 i, y, heq => exact (eq_iff_sameEndpoint rfl).1 heq
  | .pipe i, y, heq =>
    have htext : i.friendlyName = y.asString := of_decide_eq_true heq
    rw [(shows_of_constructed hx).text] at htext
    match y with
    | .pipe j =>
      have hshown : (Instance.pipe j).asString = _ := (shows_of_constructed hy).text
      rw [hshown] at htext
      by_contra hne
      exact h ⟨hne, map_shownAs_eq_iff.1 htext⟩
    | .ipv4 j => exact absurd htext h
    | .ipv6 j => exact absurd htext h
    | .envoyInternal j =>
      have hids : (Instance.envoyInternal j).asString = _ := friendlyName_of_constructed hy
      rw [hids, map_shownAs_eq_envoy_iff (shows_of_constructed hx)] at htext
      exact absurd htext h
  | .envoyInternal i, y, heq =>
    have hboth : y.type = .envoyInternal ∧ i.friendlyName = y.asString := of_decide_eq_true heq
    match y, hboth with
    | .envoyInternal j, ⟨_, htext⟩ =>
      have hids : (Instance.envoyInternal j).asString = _ := friendlyName_of_constructed hy
      rw [friendlyName_of_constructed hx, hids] at htext
      exact (append_slash_eq_iff.1 (List.append_cancel_left htext)).resolve_right h

/-- **`operator==` is a sound equivalence** on the addresses of a program if and only if no two of
them are confusable. -/
theorem lawful_iff {libc : Libc} (addresses : Set Instance)
    (hmade : ∀ x ∈ addresses, Constructed libc x) :
    Lawful addresses ↔ ∀ x ∈ addresses, ∀ y ∈ addresses, ¬ Confusable x y := by
  constructor
  · intro h x hx y hy hconf
    exact hconf.not_sameEndpoint (h.sound x hx y hy (hconf.eq (hmade x hx) (hmade y hy))).2
  · intro h
    have hsame : ∀ x ∈ addresses, ∀ y ∈ addresses, x.eq y = true → SameEndpoint x y :=
      fun x hx y hy heq ↦ sameEndpoint_of_eq (hmade x hx) (hmade y hy) heq (h x hx y hy)
    refine ⟨fun x _ ↦ eq_self x, fun x hx y hy heq ↦ ?_, fun x hx y hy z hz heq heq' ↦ ?_,
      fun x hx y hy heq ↦ ?_⟩
    · exact eq_symm_of_sameEndpoint (hsame x hx y hy heq) heq
    · exact eq_trans_of_sameEndpoint (hsame x hx y hy heq) (hsame y hy z hz heq') heq heq'
    · exact ⟨type_eq_of_sameEndpoint (hsame x hx y hy heq), hsame x hx y hy heq⟩

/-- Two internal addresses, of which one has moved a slash. -/
theorem lawful_iff_movedSlash :
    ¬ Lawful {.envoyInternal (.ofIds "a".toList "b/c".toList),
               .envoyInternal (.ofIds "a/b".toList "c".toList)} := by
  have hmade : ∀ x ∈ ({.envoyInternal (.ofIds "a".toList "b/c".toList),
      .envoyInternal (.ofIds "a/b".toList "c".toList)} : Set Instance),
      Constructed plainLibc x := by
    rintro x (rfl | rfl)
    · exact .envoyInternal _ _
    · exact .envoyInternal _ _
  rw [lawful_iff _ hmade]
  intro h
  exact h _ (.inl rfl) _ (.inr rfl) (.inl ⟨"b".toList, rfl, rfl⟩)

/-- The socket in a file that is named like an IP address. -/
def misleadingPath : SockaddrUn where
  sunPath := "127.0.0.1:80".toList ++ List.replicate 96 nul
  length_sunPath := by decide

/-- That pipe equals the IP address, and the IP address does not equal the pipe. -/
theorem misleading_path_not_lawful : ¬ Lawful {x | Constructed plainLibc x} := by
  intro h
  have hpipe : ∃ pipe, PipeInstance.ofSockaddr misleadingPath 15 0 = some (none, pipe) ∧
      pipe.friendlyName = "127.0.0.1:80".toList := ⟨_, rfl, by decide⟩
  obtain ⟨pipe, hpipe, htext⟩ := hpipe
  let c : IpConstruction := .ipv4OfSockaddr { sinPort := 80, sinAddr := 0x7f000001 }
  have hip : (c.build plainLibc).asString = "127.0.0.1:80".toList := by decide
  have heq : (Instance.pipe pipe).eq (c.build plainLibc) = true :=
    decide_eq_true (htext.trans hip.symm)
  have hback := h.symm _ (.pipeOfSockaddr hpipe) _ (.ip c) heq
  exact nomatch hback

end Instance

end TcpServer.Network
