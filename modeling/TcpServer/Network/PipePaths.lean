import TcpServer.Network.SockAddr

/-!
# The paths of pipes

An abstract name is copied to `sun_path` behind a NUL, and the instance that is made from the socket
address is the same (`rebuilds_abstract`). The copy of a pathname is commented out, so `sun_path`
stays all NUL and every pathname gives the same empty text (`ofPath_of_not_abstract`). The checks
before the copies are commented out as well: a path that is too long, or has a NUL in it, is not
rejected, and an abstract name that is too long is written past the end.

So a path is kept if it is a short abstract name, and no other is (`keepsPath_iff`).

The constructor stores the mode and does nothing else with it, as the check of it is commented out
too. The statements hold for every mode.
-/

namespace TcpServer.Network

/-- How a constructor ends: with an instance, with an exception, or by writing past `sun_path`. -/
inductive Construction
  | stored (pipe : PipeInstance)
  | thrown
  | overrun

namespace PipeInstance

/-- `PipeInstance(pipe_path, mode)`, which throws nothing. -/
def construct (pipePath : Text) (mode : ℕ) : Construction :=
  match ofPath pipePath mode with
  | some pipe => .stored pipe
  | none => .overrun

/-- The instance that is made from `sockAddr()` and `sockAddrLen()`. -/
def Rebuilds (pipe rebuilt : PipeInstance) : Prop :=
  ofSockaddr pipe.address pipe.sockAddrLen 0 = some (none, rebuilt) ∧
    (Instance.pipe rebuilt).eq (.pipe pipe) = true

end PipeInstance

open PipeInstance

/-! ### What is to be kept

A pathname is a path that fits into `sun_path` with its NUL, has no NUL inside and does not start
with an at sign. An abstract name is what follows an at sign, and may have any characters in it.
-/

/-- A text in `sun_path`, up to the end. -/
def padded (s : Text) : Text := s ++ List.replicate (sunPathSize - s.length) nul

/-- A path of the file system that `sun_path` has room for. -/
def IsPathname (path : Text) : Prop :=
  path ≠ [] ∧ nul ∉ path ∧ path.length < sunPathSize ∧ path.head? ≠ some '@'

/-- An instance of a pathname: it has the path, compares by it, and can be rebuilt. -/
structure KeepsPathname (path : Text) (pipe : PipeInstance) : Prop where
  /-- The path is in `sun_path`, with NULs behind it up to the end. -/
  sunPath_eq : pipe.address.sunPath = padded path
  /-- The text of the instance is the path. -/
  asString_eq : (Instance.pipe pipe).asString = path
  /-- Two instances of pathnames compare as their paths do. -/
  eq_iff : ∀ path' mode' pipe', IsPathname path' → construct path' mode' = .stored pipe' →
    ((Instance.pipe pipe).eq (.pipe pipe') = true ↔ path = path')
  /-- Another instance can be made from the socket address. -/
  rebuilds : ∃ rebuilt, pipe.Rebuilds rebuilt

/-- An instance of an abstract name. -/
structure KeepsAbstract (s : Text) (pipe : PipeInstance) : Prop where
  /-- The name is in `sun_path` behind a NUL, with NULs behind it up to the end. -/
  sunPath_eq : pipe.address.sunPath = padded (nul :: s)
  /-- The length counts the name and the NUL in front of it, and not what is behind the name. -/
  addressLength_eq : pipe.addressLength.toNat = 1 + s.length
  /-- The instance that is made from the socket address reports the same length. -/
  rebuilds : ∃ rebuilt, pipe.Rebuilds rebuilt ∧ rebuilt.sockAddrLen = pipe.sockAddrLen

/-- What the constructor is to do with a path. -/
structure KeepsPath (path : Text) (mode : ℕ) : Prop where
  /-- A pathname is stored and kept. -/
  pathname : IsPathname path → ∃ pipe, construct path mode = .stored pipe ∧ KeepsPathname path pipe
  /-- An abstract name that fits is stored and kept. -/
  abstractName : ∀ s, path = '@' :: s → path.length < sunPathSize →
    ∃ pipe, construct path mode = .stored pipe ∧ KeepsAbstract s pipe
  /-- A path that is too long, or a path of the file system with a NUL in it, is rejected. -/
  rejected : sunPathSize ≤ path.length ∨ path.head? ≠ some '@' ∧ nul ∈ path →
    construct path mode = .thrown

variable {path s : Text} {mode : ℕ}

/-! ### What the constructor does -/

/-- Nothing is thrown, as every `throw` that is compiled on Linux is commented out. -/
theorem construct_ne_thrown : construct path mode ≠ .thrown := by
  intro h
  rw [construct] at h
  split at h <;> cases h

/-- What is stored for a path that is no abstract name. -/
theorem ofPath_of_not_abstract (mode : ℕ) (h : path.head? ≠ some '@') :
    ∃ pipe, ofPath path mode = some pipe ∧ pipe.address.sunPath = List.replicate sunPathSize nul ∧
      pipe.friendlyName = [] :=
  ⟨_, if_neg h, rfl, rfl⟩

/-- What is stored for an abstract name. -/
theorem ofPath_of_abstract (mode : ℕ) (h : ('@' :: s).length < sunPathSize) :
    ∃ pipe, ofPath ('@' :: s) mode = some pipe ∧ pipe.address.sunPath = padded (nul :: s) ∧
      pipe.abstractNamespace = true ∧ pipe.addressLength = .ofNat 32 ('@' :: s).length ∧
      pipe.friendlyName = friendlyNameFromAbstractPath
        (pipe.address.sunPath.take ('@' :: s).length) :=
  ⟨_, (if_pos rfl).trans (dif_pos h), rfl, rfl, rfl, rfl⟩

/-- **An abstract name is rebuilt**, with its length. -/
theorem rebuilds_abstract {pipe : PipeInstance} (hnul : pipe.address.sunPath.head? = some nul)
    (habstract : pipe.abstractNamespace = true) (hle : pipe.addressLength.toNat ≤ sunPathSize)
    (hname : pipe.friendlyName =
      friendlyNameFromAbstractPath (pipe.address.sunPath.take pipe.addressLength.toNat)) :
    ∃ rebuilt, pipe.Rebuilds rebuilt ∧ rebuilt.sockAddrLen = pipe.sockAddrLen := by
  have hlen : pipe.sockAddrLen = .ofNat 32 offsetofSunPath + pipe.addressLength := by
    rw [sockAddrLen, if_pos habstract]
  have hlength : pipe.sockAddrLen - .ofNat 32 offsetofSunPath = pipe.addressLength := by
    rw [hlen]
    bv_omega
  rw [← hlength] at hle hname
  have hrebuilt : ofSockaddr pipe.address pipe.sockAddrLen 0 = some (none,
      { friendlyName := pipe.friendlyName, address := pipe.address, abstractNamespace := true
        addressLength := pipe.sockAddrLen - .ofNat 32 offsetofSunPath }) := by
    simp only [ofSockaddr, if_pos hnul, initHelper, if_true, ne_eq, not_true, if_false, if_pos hle]
    rw [hname]
  refine ⟨_, ⟨hrebuilt, decide_eq_true rfl⟩, ?_⟩
  rw [sockAddrLen, if_pos rfl, hlen]
  show BitVec.ofNat 32 offsetofSunPath +
    (BitVec.ofNat 32 offsetofSunPath + pipe.addressLength - BitVec.ofNat 32 offsetofSunPath) = _
  rw [← hlen, hlength, hlen]

/-- A short abstract name is kept, and neither of the other two cases applies to it. -/
theorem keepsPath_of_abstract (h : ('@' :: s).length < sunPathSize) :
    KeepsPath ('@' :: s) mode := by
  obtain ⟨pipe, hpipe, hsunPath, habstract, hlength, hname⟩ := ofPath_of_abstract mode h
  have htoNat : pipe.addressLength.toNat = ('@' :: s).length := by
    rw [hlength, BitVec.toNat_ofNat]
    exact Nat.mod_eq_of_lt (h.trans (by decide))
  refine ⟨fun hpath ↦ absurd rfl hpath.2.2.2, ?_, ?_⟩
  · rintro _ ⟨⟩ -
    have hconstruct : construct ('@' :: s) mode = .stored pipe := by rw [construct, hpipe]
    refine ⟨pipe, hconstruct, hsunPath, htoNat.trans (Nat.add_comm _ _),
      rebuilds_abstract ?_ habstract ?_ ?_⟩
    · rw [hsunPath]
      rfl
    · exact htoNat ▸ h.le
    · rw [htoNat]
      exact hname
  · rintro (hle | ⟨hhead, -⟩)
    · exact absurd h (Nat.not_lt.2 hle)
    · exact absurd rfl hhead

/-! ### Which paths are kept -/

/-- Nothing is asked for the empty path. -/
theorem keepsPath_nil : KeepsPath [] mode := by
  refine ⟨fun h ↦ absurd rfl h.1, fun s h ↦ ?_, ?_⟩
  · cases h
  · rintro (hle | ⟨-, hmem⟩)
    · exact absurd hle (by decide)
    · exact absurd hmem List.not_mem_nil

/-- A path that is no abstract name is lost if it fits, and not rejected if it does not. -/
theorem not_keepsPath_of_not_abstract (hne : path ≠ []) (hhead : path.head? ≠ some '@') :
    ¬ KeepsPath path mode := by
  intro h
  by_cases hpath : IsPathname path
  · obtain ⟨pipe, hpipe, hkeeps⟩ := h.pathname hpath
    obtain ⟨pipe', hpipe', -, hname⟩ := ofPath_of_not_abstract mode hhead
    rw [construct, hpipe'] at hpipe
    obtain rfl : pipe' = pipe := Construction.stored.inj hpipe
    exact hne (hkeeps.asString_eq.symm.trans hname)
  · refine construct_ne_thrown (h.rejected ?_)
    by_contra hnot
    rw [not_or, Nat.not_le, not_and] at hnot
    exact hpath ⟨hne, hnot.2 hhead, hnot.1, hhead⟩

/-- **A path is kept** if it is a short abstract name, or empty. -/
theorem keepsPath_iff (path : Text) (mode : ℕ) :
    KeepsPath path mode ↔ path = [] ∨ path.head? = some '@' ∧ path.length < sunPathSize := by
  constructor
  · intro h
    by_cases hne : path = []
    · exact Or.inl hne
    · have hhead : path.head? = some '@' := by
        by_contra hhead
        exact not_keepsPath_of_not_abstract hne hhead h
      refine Or.inr ⟨hhead, ?_⟩
      by_contra hlt
      exact construct_ne_thrown (h.rejected (.inl (Nat.not_lt.1 hlt)))
  · rintro (rfl | ⟨hhead, hlt⟩)
    · exact keepsPath_nil
    · obtain ⟨s, rfl⟩ := List.head?_eq_some_iff.1 hhead
      exact keepsPath_of_abstract hlt

/-- A pathname is lost. -/
theorem not_keepsPath_tmp : ¬ KeepsPath "/tmp/listener.sock".toList 0 :=
  not_keepsPath_of_not_abstract (by decide) (by decide)

end TcpServer.Network
