import TcpServer.Lib.Numerals

/-!
# Addresses

The four classes of `AddressImpl.cpp`, what their constructors store, and `operator==`.

A text is a list of characters. A socket address is given by its family and the fields of the
structure that belongs to it; numbers that are kept in network byte order are read as numbers, so
`ntohs` and `htons` are no more than changes of width. What the C library does with addresses is a
parameter, `Libc`.

`validateProtocolSupported` has its check commented out and always fails; what throws on an error
status does not throw any more. So the constructors that take a status reject every address
(`createIpv4Instance`, `createIpv6Instance`), and the public ones go on.

Everything here is a definition; that a text and a socket address agree, and which addresses are
equal, is for the modules on text and on equality to say. Two slips of the source show in what the
constructors store, and are kept: the copy of a pathname into `sun_path` is commented out, and a
port of more than 16 bits is cut in the socket address and printed in full.
-/

namespace TcpServer.Network

/-- A string of characters. -/
abbrev Text := List Char

/-- The character that ends a string of C. -/
def nul : Char := Char.ofNat 0

/-- What `c_str()` shows to a function of C. -/
def cStr (s : Text) : Text := s.takeWhile (· ≠ nul)

/-- An unsigned number as `absl::StrCat` and `fmt` print it. -/
def decimal (n : ℕ) : Text := Nat.toDigits 10 n

/-! ### Socket addresses

A port is a number, and so is an address. The bytes that they have in memory are the subject of
`DottedDecimal` and `FlipOrder`.
-/

/-- A `sockaddr_in`. -/
structure SockaddrIn where
  /-- `sin_port`. -/
  sinPort : BitVec 16
  /-- `sin_addr`. -/
  sinAddr : BitVec 32
deriving DecidableEq

/-- A `sockaddr_in6`. -/
structure SockaddrIn6 where
  /-- `sin6_port`. -/
  sin6Port : BitVec 16
  /-- `sin6_addr`. -/
  sin6Addr : BitVec 128
  /-- `sin6_scope_id`. -/
  sin6ScopeId : BitVec 32
deriving DecidableEq

/-- The length of `sun_path`. -/
def sunPathSize : ℕ := 108

/-- `offsetof(struct sockaddr_un, sun_path)`. -/
def offsetofSunPath : ℕ := 2

/-- A `sockaddr_un`. -/
structure SockaddrUn where
  /-- `sun_path`, up to its end. -/
  sunPath : Text
  /-- It is an array of this length. -/
  length_sunPath : sunPath.length = sunPathSize
deriving DecidableEq

/-- `sizeof(struct sockaddr_un)`. -/
def sizeofSockaddrUn : ℕ := offsetofSunPath + sunPathSize

/-- A `sockaddr_storage`, by its family. -/
inductive SockaddrStorage
  | inet (sin : SockaddrIn)
  | inet6 (sin6 : SockaddrIn6)
  | unix (sun : SockaddrUn)
  | other (family : ℕ)
deriving DecidableEq

/-- The functions of the C library that addresses are rendered and parsed with. `inet_pton` leaves
its destination alone when it fails. -/
structure Libc where
  /-- `inet_pton(AF_INET, ..)`. -/
  inetPton4 : Text → Option (BitVec 32)
  /-- `inet_pton(AF_INET6, ..)`. -/
  inetPton6 : Text → Option (BitVec 128)
  /-- `inet_ntop(AF_INET6, ..)`. -/
  inetNtop6 : BitVec 128 → Text

/-! ### Status

The factory functions return a status; the kinds of error that occur are enough here.
-/

/-- An `absl::Status` that is not OK. -/
inductive Status
  | invalidArgument (message : String)
  | failedPrecondition (message : String)
deriving DecidableEq

/-- A `StatusOr`. -/
abbrev StatusOr (β : Type*) := Except Status β

/-! ### IPv4

The friendly address is rendered by hand, backwards from the last octet. What the text and port of
the caller are used for differs from one constructor to the other.
-/

/-- `Ipv4Instance`. -/
structure Ipv4Instance where
  /-- `friendly_name_`. -/
  friendlyName : Text
  /-- `ip_.ipv4_.address_`. -/
  address : SockaddrIn
  /-- `ip_.friendly_address_`. -/
  friendlyAddress : Text
deriving DecidableEq

namespace Ipv4Instance

/-- The `do` loop over the digits of an octet. -/
def writeDigits (octet : ℕ) (str : Text) : ℕ → Text
  | 0 => str
  | fuel + 1 =>
    let str := Char.ofNat ('0'.toNat + octet % 10) :: str
    let octet := octet / 10
    if octet ≠ 0 then writeDigits octet str fuel else str

/-- The `for` loop, which writes backwards from the last octet. -/
def writeOctets (ipv4Addr : BitVec 32) (str : Text) : ℕ → Text
  | 0 => str
  | i + 1 =>
    let octet := (ipv4Addr &&& 0xff#32).toNat
    let str := if octet = 0 then '0' :: str else writeDigits octet str 3
    let str := if i ≠ 0 then '.' :: str else str
    writeOctets (ipv4Addr >>> 8) str i

/-- `sockaddrToString`, over a text without bound. -/
def sockaddrToString (addr : SockaddrIn) : Text := writeOctets addr.sinAddr [] 4

/-- `port()`. -/
def port (i : Ipv4Instance) : ℕ := i.address.sinPort.toNat

/-- `validateProtocolSupported`, whose check is commented out. -/
def validateProtocolSupported : Option Status :=
  some (.failedPrecondition "IPv4 addresses are not supported on this machine")

/-- `initHelper`. -/
def initHelper (address : SockaddrIn) : Ipv4Instance :=
  let friendlyAddress := sockaddrToString address
  { friendlyName := friendlyAddress ++ ':' :: decimal address.sinPort.toNat, address,
    friendlyAddress }

/-- `Ipv4Instance(address)`. -/
def ofSockaddr (address : SockaddrIn) : Ipv4Instance := initHelper address

/-- `Ipv4Instance(address, port)`. The `throw` on an address that does not parse is commented
out. -/
def ofStringPort (libc : Libc) (address : Text) (port : BitVec 32) : Ipv4Instance where
  friendlyName := address ++ ':' :: decimal port.toNat
  address :=
    { sinPort := port.setWidth 16, sinAddr := (libc.inetPton4 (cStr address)).getD 0 }
  friendlyAddress := address

/-- `Ipv4Instance(address)`, for a string. -/
def ofString (libc : Libc) (address : Text) : Ipv4Instance := ofStringPort libc address 0

/-- `Ipv4Instance(port)`. -/
def ofPort (port : BitVec 32) : Ipv4Instance where
  friendlyName := "0.0.0.0:".toList ++ decimal port.toNat
  address := { sinPort := port.setWidth 16, sinAddr := 0 }
  friendlyAddress := "0.0.0.0".toList

end Ipv4Instance

/-! ### IPv6

The friendly address is rendered by the C library, with the zone of a scoped address behind it.
-/

/-- `Ipv6Instance`. -/
structure Ipv6Instance where
  /-- `friendly_name_`. -/
  friendlyName : Text
  /-- `ip_.ipv6_.address_`. -/
  address : SockaddrIn6
  /-- `ip_.v6only_`. -/
  v6only : Bool
  /-- `ip_.friendly_address_`. -/
  friendlyAddress : Text
deriving DecidableEq

/-- `IN6_IS_ADDR_V4MAPPED`: ten bytes zero, two bytes `0xff`. -/
def isV4Mapped (address : BitVec 128) : Bool := address >>> 32 = 0xffff#128

/-- The last four bytes of the address. -/
def ipv6ToIpv4CompatibleAddress (sin6 : SockaddrIn6) : SockaddrIn :=
  { sinPort := sin6.sin6Port, sinAddr := sin6.sin6Addr.setWidth 32 }

namespace Ipv6Instance

/-- `port()`. -/
def port (i : Ipv6Instance) : ℕ := i.address.sin6Port.toNat

/-- `makeFriendlyAddress`. -/
def makeFriendlyAddress (libc : Libc) (address : SockaddrIn6) : Text :=
  let ptr := libc.inetNtop6 address.sin6Addr
  if address.sin6ScopeId ≠ 0 then ptr ++ '%' :: decimal address.sin6ScopeId.toNat else ptr

/-- `validateProtocolSupported`, whose check is commented out. -/
def validateProtocolSupported : Option Status :=
  some (.failedPrecondition "IPv6 addresses are not supported on this machine")

/-- `initHelper`. -/
def initHelper (libc : Libc) (address : SockaddrIn6) (v6only : Bool) : Ipv6Instance :=
  let friendlyAddress := makeFriendlyAddress libc address
  { friendlyName := '[' :: friendlyAddress ++ ']' :: ':' :: decimal address.sin6Port.toNat
    address, v6only, friendlyAddress }

/-- `Ipv6Instance(address, v6only)`. -/
def ofSockaddr (libc : Libc) (address : SockaddrIn6) (v6only : Bool) : Ipv6Instance :=
  initHelper libc address v6only

/-- `Ipv6Instance(address, port, v6only)`, for a string. `in6addr_any` is zero. -/
def ofStringPort (libc : Libc) (address : Text) (port : BitVec 32) (v6only : Bool) : Ipv6Instance :=
  let sin6Addr := if address.isEmpty then 0 else (libc.inetPton6 (cStr address)).getD 0
  initHelper libc { sin6Port := port.setWidth 16, sin6Addr, sin6ScopeId := 0 } v6only

/-- `Ipv6Instance(address)`, for a string. -/
def ofString (libc : Libc) (address : Text) : Ipv6Instance := ofStringPort libc address 0 true

/-- `Ipv6Instance(port)`. -/
def ofPort (libc : Libc) (port : BitVec 32) : Ipv6Instance := ofStringPort libc [] port true

end Ipv6Instance

/-! ### Pipes

A pipe is a path in the file system, or a name in the abstract namespace, which begins with NUL. The
constructors differ in who computes the length.
-/

/-- `mode` is a `mode_t`. -/
structure PipeInstance where
  /-- `friendly_name_`. -/
  friendlyName : Text := []
  /-- `pipe_.address_`. -/
  address : SockaddrUn
  /-- `pipe_.abstract_namespace_`. -/
  abstractNamespace : Bool := false
  /-- `pipe_.address_length_`. -/
  addressLength : BitVec 32 := 0
  /-- `pipe_.mode_`. -/
  mode : ℕ := 0
deriving DecidableEq

/-- `friendlyNameFromAbstractPath`. -/
def friendlyNameFromAbstractPath (path : Text) : Text :=
  path.map fun c ↦ if c = nul then '@' else c

namespace PipeInstance

/-- The status, if it is not OK, and what has been stored until then. There is no result when the
name of the address is read past the end of `sun_path`. -/
def initHelper (pipe : PipeInstance) (address : SockaddrUn) (mode : ℕ) :
    Option (Option Status × PipeInstance) :=
  let pipe := { pipe with address }
  if pipe.abstractNamespace then
    if mode ≠ 0 then
      some (some (.failedPrecondition "Cannot set mode for Abstract AF_UNIX sockets"), pipe)
    else if pipe.addressLength.toNat ≤ sunPathSize then
      let name := friendlyNameFromAbstractPath (address.sunPath.take pipe.addressLength.toNat)
      some (none, { pipe with friendlyName := name, mode })
    else none
  else if nul ∈ address.sunPath then
    some (none, { pipe with friendlyName := cStr address.sunPath, mode })
  else none

/-- The constructors from a `sockaddr_un`. The public one does not throw on an error. -/
def ofSockaddr (address : SockaddrUn) (ssLen : BitVec 32) (mode : ℕ) :
    Option (Option Status × PipeInstance) :=
  let pipe : PipeInstance :=
    if address.sunPath.head? = some nul then
      { address, abstractNamespace := true, addressLength := ssLen - .ofNat 32 offsetofSunPath }
    else { address }
  pipe.initHelper address mode

/-- `PipeInstance(pipe_path, mode)`. The copy of a pathname is commented out, as is the `throw` on a
name that does not fit, so an abstract name that is too long is copied past the end of
`sun_path`. -/
def ofPath (pipePath : Text) (mode : ℕ) : Option PipeInstance :=
  if pipePath.head? = some '@' then
    if h : pipePath.length < sunPathSize then
      let sunPath := (nul :: pipePath.tail) ++ List.replicate
        (sunPathSize - (pipePath.tail.length + 1)) nul
      have length_sunPath : sunPath.length = sunPathSize := by
        rw [List.length_append, List.length_cons, List.length_replicate, List.length_tail]
        omega
      some {
        friendlyName := friendlyNameFromAbstractPath (sunPath.take pipePath.length)
        address := { sunPath, length_sunPath }
        abstractNamespace := true
        addressLength := .ofNat 32 pipePath.length
        mode }
    else none
  else some {
    address := { sunPath := List.replicate sunPathSize nul,
                 length_sunPath := List.length_replicate }
    mode }

/-- `sockAddrLen()`. -/
def sockAddrLen (pipe : PipeInstance) : BitVec 32 :=
  if pipe.abstractNamespace then .ofNat 32 offsetofSunPath + pipe.addressLength
  else .ofNat 32 sizeofSockaddrUn

/-- The bytes of `sun_path` that name the endpoint. -/
def name (pipe : PipeInstance) : Text :=
  if pipe.abstractNamespace then pipe.address.sunPath.take pipe.addressLength.toNat
  else cStr pipe.address.sunPath

end PipeInstance

/-! ### Internal addresses

An internal address has two ids and no socket address.
-/

/-- `EnvoyInternalInstance`. -/
structure EnvoyInternalInstance where
  /-- `friendly_name_`. -/
  friendlyName : Text
  /-- `internal_address_.address_id_`. -/
  addressId : Text
  /-- `internal_address_.endpoint_id_`. -/
  endpointId : Text
deriving DecidableEq

/-- `EnvoyInternalInstance(address_id, endpoint_id)`. -/
def EnvoyInternalInstance.ofIds (addressId endpointId : Text) : EnvoyInternalInstance where
  friendlyName := "envoy://".toList ++ addressId ++ '/' :: endpointId
  addressId := addressId
  endpointId := endpointId

/-! ### Instances

An instance is one of the four. Each class has its own `operator==`, and which one is called is
decided by the left side.
-/

/-- `Type`. -/
inductive AddressType
  | ip
  | pipe
  | envoyInternal
deriving DecidableEq

/-- An `Address::Instance`. -/
inductive Instance
  | ipv4 (i : Ipv4Instance)
  | ipv6 (i : Ipv6Instance)
  | pipe (i : PipeInstance)
  | envoyInternal (i : EnvoyInternalInstance)
deriving DecidableEq

namespace Instance

/-- `type()`. -/
def type : Instance → AddressType
  | ipv4 _ | ipv6 _ => .ip
  | pipe _ => .pipe
  | envoyInternal _ => .envoyInternal

/-- `asString()`. -/
def asString : Instance → Text
  | ipv4 i => i.friendlyName
  | ipv6 i => i.friendlyName
  | pipe i => i.friendlyName
  | envoyInternal i => i.friendlyName

/-- `operator==`. -/
def eq (lhs rhs : Instance) : Bool :=
  match lhs with
  | ipv4 i =>
    match rhs with
    | ipv4 j => i.address.sinAddr = j.address.sinAddr ∧ i.port = j.port
    | _ => false
  | ipv6 i =>
    match rhs with
    | ipv6 j =>
      i.address.sin6Addr = j.address.sin6Addr ∧ i.port = j.port ∧
        i.address.sin6ScopeId = j.address.sin6ScopeId
    | _ => false
  | pipe i => i.friendlyName = rhs.asString
  | envoyInternal i => rhs.type = .envoyInternal ∧ i.friendlyName = rhs.asString

end Instance

/-! ### The factory

The factory functions call `validateProtocolSupported` of their class first, so for the IP classes
there is only the error.
-/

/-- `InstanceFactory::createInstancePtr<Ipv4Instance>`. -/
def createIpv4Instance (address : SockaddrIn) : StatusOr Instance :=
  match Ipv4Instance.validateProtocolSupported with
  | some status => .error status
  | none => .ok (.ipv4 (.initHelper address))

/-- `InstanceFactory::createInstancePtr<Ipv6Instance>`. -/
def createIpv6Instance (libc : Libc) (address : SockaddrIn6) (v6only : Bool) : StatusOr Instance :=
  match Ipv6Instance.validateProtocolSupported with
  | some status => .error status
  | none => .ok (.ipv6 (.initHelper libc address v6only))

/-- `InstanceFactory::createInstancePtr<PipeInstance>`. -/
def createPipeInstance (address : SockaddrUn) (ssLen : BitVec 32) : Option (StatusOr Instance) :=
  (PipeInstance.ofSockaddr address ssLen 0).map fun
    | (some status, _) => .error status
    | (none, pipe) => .ok (.pipe pipe)

/-- The factory rejects every IPv4 address. -/
theorem createIpv4Instance_eq (address : SockaddrIn) :
    createIpv4Instance address =
      .error (.failedPrecondition "IPv4 addresses are not supported on this machine") :=
  rfl

theorem createIpv6Instance_eq (libc : Libc) (address : SockaddrIn6) (v6only : Bool) :
    createIpv6Instance libc address v6only =
      .error (.failedPrecondition "IPv6 addresses are not supported on this machine") :=
  rfl

end TcpServer.Network
