import TcpServer.Network.AddressEquality

/-!
# Addresses from socket addresses

`addressFromSockAddr` picks a class by the family and hands the socket address to the factory. For a
Unix domain socket the factory keeps the socket address as it is. The length it reports is that of
the whole structure when the name is a path, since the path ends with a NUL anyway; only an abstract
name needs its length, and keeps it (`addressFromSockAddr_unix`).

The two wrappers dereference the result without a test, as their error branches are commented out; a
status that is not OK has no result there.
-/

namespace TcpServer.Network

/-- Neither Apple nor Android. -/
def forceV6 : Bool := false

/-- There is no result when a name is read past its end. -/
def addressFromSockAddr (libc : Libc) (ss : SockaddrStorage) (ssLen : BitVec 32) (v6only : Bool) :
    Option (StatusOr Instance) :=
  let v6only := if forceV6 then false else v6only
  match ss with
  | .inet sin => some (createIpv4Instance sin)
  | .inet6 sin6 =>
    if ¬ v6only ∧ isV4Mapped sin6.sin6Addr then
      some (createIpv4Instance (ipv6ToIpv4CompatibleAddress sin6))
    else some (createIpv6Instance libc sin6 v6only)
  | .unix sun => createPipeInstance sun ssLen
  | .other _ => some (.error (.invalidArgument "Unexpected sockaddr family"))

/-- `*address`. -/
def dereference (address : StatusOr Instance) : Option Instance := address.toOption

/-- `addressFromSockAddrOrThrow`, which throws nothing: the result is dereferenced as it is. -/
def addressFromSockAddrOrThrow (libc : Libc) (ss : SockaddrStorage) (ssLen : BitVec 32)
    (v6only : Bool) : Option Instance := do
  let address ← addressFromSockAddr libc ss ssLen v6only
  dereference address

/-- `fd` is only for the message. -/
def addressFromSockAddrOrDie (libc : Libc) (ss : SockaddrStorage) (ssLen : BitVec 32) (_fd : ℤ)
    (v6only : Bool) : Option Instance := do
  let address ← addressFromSockAddr libc ss ssLen v6only
  dereference address

namespace SockaddrUn

/-- The name does not stand for a file, as it starts with a NUL. -/
def isAbstract (sun : SockaddrUn) : Prop := sun.sunPath.head? = some nul

instance (sun : SockaddrUn) : Decidable sun.isAbstract := inferInstanceAs (Decidable (_ = _))

/-- A length that goes with the name: it covers at least one byte of the name and no more than there
are. A path ends with a NUL, and its length may be left out. -/
def ValidLen (sun : SockaddrUn) (ssLen : BitVec 32) : Prop :=
  let inRange := offsetofSunPath + 1 ≤ ssLen.toNat ∧ ssLen.toNat ≤ sizeofSockaddrUn
  if sun.isAbstract then inRange else nul ∈ sun.sunPath ∧ (ssLen = 0 ∨ inRange)

instance (sun : SockaddrUn) (ssLen : BitVec 32) : Decidable (sun.ValidLen ssLen) :=
  inferInstanceAs (Decidable (if sun.isAbstract then _ else _))

end SockaddrUn

namespace SockaddrStorage

/-- A length that goes with the socket address. -/
def ValidLen (ss : SockaddrStorage) (ssLen : BitVec 32) : Prop :=
  match ss with
  | inet _ => ssLen = 0 ∨ ssLen.toNat = 16
  | inet6 _ => ssLen = 0 ∨ ssLen.toNat = 28
  | unix sun => sun.ValidLen ssLen
  | other _ => False

/-- The instance holds what the socket address says, and its length. -/
def DecodedBy (ss : SockaddrStorage) (ssLen : BitVec 32) (v6only : Bool) (i : Instance) : Prop :=
  match ss with
  | inet sin => ∃ j, i = .ipv4 j ∧ j.address = sin
  | inet6 sin6 =>
    if ¬ v6only ∧ isV4Mapped sin6.sin6Addr then
      ∃ j, i = .ipv4 j ∧ j.address = { sinPort := sin6.sin6Port,
                                       sinAddr := sin6.sin6Addr.setWidth 32 }
    else ∃ j, i = .ipv6 j ∧ j.address = sin6 ∧ j.v6only = v6only
  | unix sun => ∃ pipe, i = .pipe pipe ∧ pipe.address = sun ∧ pipe.sockAddrLen = ssLen
  | other _ => False

end SockaddrStorage

/-- What the constructor makes of a Unix domain socket. -/
theorem PipeInstance.ofSockaddr_spec {sun : SockaddrUn} {ssLen : BitVec 32}
    (h : sun.ValidLen ssLen) :
    ∃ pipe, ofSockaddr sun ssLen 0 = some (none, pipe) ∧ pipe.address = sun ∧
      pipe.sockAddrLen = if sun.isAbstract then ssLen else .ofNat 32 sizeofSockaddrUn := by
  by_cases habstract : sun.isAbstract
  · rw [SockaddrUn.ValidLen, if_pos habstract] at h
    obtain ⟨hge, hle⟩ := h
    rw [offsetofSunPath] at hge
    rw [sizeofSockaddrUn, offsetofSunPath, sunPathSize] at hle
    have hlen : (ssLen - BitVec.ofNat 32 offsetofSunPath).toNat ≤ sunPathSize := by
      rw [offsetofSunPath, sunPathSize]
      bv_omega
    have hhead : sun.sunPath.head? = some nul := habstract
    simp only [ofSockaddr, if_pos hhead, initHelper, if_true, ne_eq, not_true, if_false,
      if_pos hlen]
    refine ⟨_, rfl, rfl, ?_⟩
    rw [sockAddrLen, if_pos rfl, if_pos habstract]
    show BitVec.ofNat 32 offsetofSunPath + (ssLen - BitVec.ofNat 32 offsetofSunPath) = ssLen
    bv_omega
  · rw [SockaddrUn.ValidLen, if_neg habstract] at h
    have hhead : ¬ sun.sunPath.head? = some nul := habstract
    simp only [ofSockaddr, if_neg hhead, initHelper, Bool.false_eq_true, if_false, if_pos h.1]
    refine ⟨_, rfl, rfl, ?_⟩
    rw [if_neg habstract]
    rfl

/-- **A Unix domain socket is decoded**: the instance holds the socket address, the length of an
abstract name, and the size of the structure for a path. -/
theorem addressFromSockAddr_unix {sun : SockaddrUn} {ssLen : BitVec 32} (h : sun.ValidLen ssLen)
    (libc : Libc) (v6only : Bool) (fd : ℤ) :
    ∃ pipe : PipeInstance,
      addressFromSockAddr libc (.unix sun) ssLen v6only = some (.ok (.pipe pipe)) ∧
      pipe.address = sun ∧
      pipe.sockAddrLen = (if sun.isAbstract then ssLen else .ofNat 32 sizeofSockaddrUn) ∧
      addressFromSockAddrOrThrow libc (.unix sun) ssLen v6only = some (.pipe pipe) ∧
      addressFromSockAddrOrDie libc (.unix sun) ssLen fd v6only = some (.pipe pipe) := by
  obtain ⟨pipe, hpipe, haddress, hlen⟩ := PipeInstance.ofSockaddr_spec h
  have hdecode : addressFromSockAddr libc (.unix sun) ssLen v6only = some (.ok (.pipe pipe)) := by
    rw [addressFromSockAddr, createPipeInstance, hpipe]
    rfl
  refine ⟨pipe, hdecode, haddress, hlen, ?_, ?_⟩
  · rw [addressFromSockAddrOrThrow, hdecode]
    rfl
  · rw [addressFromSockAddrOrDie, hdecode]
    rfl

/-- The path that `getsockname` reports with its NUL. -/
theorem addressFromSockAddr_unix_path :
    ∃ pipe : PipeInstance,
      addressFromSockAddr plainLibc (.unix Instance.misleadingPath) 15 true =
        some (.ok (.pipe pipe)) ∧ pipe.address = Instance.misleadingPath ∧
          pipe.sockAddrLen = 110 := by
  have hvalid : Instance.misleadingPath.ValidLen 15 := by decide
  obtain ⟨pipe, hdecode, haddress, hlen, -⟩ := addressFromSockAddr_unix hvalid plainLibc true 3
  exact ⟨pipe, hdecode, haddress, hlen.trans (if_neg (by decide))⟩

/-- A path with its own length: the length is not kept. -/
theorem path_length_not_decoded :
    ¬ ∀ ss ssLen v6only, SockaddrStorage.ValidLen ss ssLen →
      ∃ i, addressFromSockAddr plainLibc ss ssLen v6only = some (.ok i) ∧
        ss.DecodedBy ssLen v6only i := by
  intro h
  have hvalid : Instance.misleadingPath.ValidLen 15 := by decide
  obtain ⟨i, hi, hdecoded⟩ := h (.unix Instance.misleadingPath) 15 true hvalid
  obtain ⟨pipe, rfl, -, hlen⟩ := hdecoded
  obtain ⟨pipe', hpipe', -, hlen'⟩ := PipeInstance.ofSockaddr_spec hvalid
  rw [addressFromSockAddr, createPipeInstance, hpipe'] at hi
  obtain rfl : pipe' = pipe := Instance.pipe.inj (Except.ok.inj (Option.some.inj hi))
  rw [hlen, if_neg (by decide)] at hlen'
  exact absurd hlen' (by decide)

end TcpServer.Network
