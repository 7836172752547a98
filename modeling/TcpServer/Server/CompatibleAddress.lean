import TcpServer.Lib.GreedyMatch
import TcpServer.Network.AddressEquality
import TcpServer.Server.ListenerManager

/-!
# When two listeners have the same addresses

`hasCompatibleAddress` looks for every address of one listener among those of the other that are
left. Equality of IP addresses is an equivalence, since it is equality of endpoints, and the search
then finds a matching whenever there is one (`hasCompatibleAddress_iff`). On listeners with IP
addresses the test is therefore an equivalence itself, and blind to the order of the addresses.

Taking the first address that is equal is greedy, and for an arbitrary relation it could take the
only partner of a later address. It is enough here that the relation is difunctional: two addresses
with a partner in common have all partners in common.
-/

namespace TcpServer.Server

open Network Instance Lib.GreedyMatch

/-- Equal as multisets, up to `operator==`. -/
def SameAddresses (addresses others : List Instance) : Prop :=
  Multiset.Rel (fun x y ↦ x.eq y = true) (addresses : Multiset Instance)
    (others : Multiset Instance)

/-- All addresses are IP addresses. -/
def AllIp (addresses : List Instance) : Prop := ∀ x ∈ addresses, x.type = .ip

/-- A listener whose addresses are IP addresses. -/
structure IpListener where
  /-- The listener. -/
  impl : ListenerImpl
  /-- Its addresses are IP addresses. -/
  allIp : AllIp impl.addresses

variable {addresses others : List Instance}

/-! ### Lists of IP addresses -/

/-- As many addresses as others. -/
theorem SameAddresses.length_eq (h : SameAddresses addresses others) :
    addresses.length = others.length := Multiset.card_eq_card_of_rel h

theorem SameAddresses.of_perm (h : addresses.Perm others) : SameAddresses addresses others := by
  rw [SameAddresses, Multiset.coe_eq_coe.2 h]
  exact Multiset.rel_refl_of_refl_on fun x _ ↦ eq_self x

/-- Equality of IP addresses is equality of endpoints. -/
theorem sameAddresses_iff_sameEndpoint (h : AllIp addresses) :
    SameAddresses addresses others ↔
      Multiset.Rel SameEndpoint (addresses : Multiset Instance) (others : Multiset Instance) := by
  constructor <;> intro hrel <;> refine hrel.mono fun x hx y _ ↦ ?_
  · exact (eq_iff_sameEndpoint (h x hx)).1
  · exact (eq_iff_sameEndpoint (h x hx)).2

/-- Only IP addresses are equal to IP addresses, on the right of `==`. -/
theorem SameAddresses.allIp (h : SameAddresses addresses others) (hip : AllIp addresses) :
    AllIp others := by
  intro y hy
  have hflip := Multiset.rel_flip.2 ((sameAddresses_iff_sameEndpoint hip).1 h)
  obtain ⟨x, hx, hxy⟩ := Multiset.exists_mem_of_rel_of_mem hflip (Multiset.mem_coe.2 hy)
  rw [← type_eq_of_sameEndpoint (show SameEndpoint x y from hxy)]
  exact hip x hx

/-- The relation is symmetric where the addresses are IP addresses. -/
theorem SameAddresses.symm (h : SameAddresses addresses others) (hip : AllIp addresses) :
    SameAddresses others addresses := by
  have hflip := Multiset.rel_flip.2 ((sameAddresses_iff_sameEndpoint hip).1 h)
  rw [sameAddresses_iff_sameEndpoint (h.allIp hip)]
  exact hflip.mono fun _ _ _ _ ↦ SameEndpoint.symm

/-- It is transitive there. -/
theorem SameAddresses.trans {third : List Instance} (h : SameAddresses addresses others)
    (h' : SameAddresses others third) (hip : AllIp addresses) : SameAddresses addresses third := by
  have : IsTrans Instance SameEndpoint := ⟨fun _ _ _ ↦ SameEndpoint.trans⟩
  rw [sameAddresses_iff_sameEndpoint (h.allIp hip)] at h'
  rw [sameAddresses_iff_sameEndpoint hip] at h ⊢
  exact h.trans _ h'

/-- Addresses with a partner in common have all partners in common. -/
theorem difunctional_eq (h : AllIp addresses) (others : List Instance) :
    Difunctional (fun x y : Instance ↦ x.eq y = true) (addresses : Multiset Instance)
      (others : Multiset Instance) := by
  intro x hx x' hx' y _ y' _ hxy hxy' hx'y
  rw [eq_iff_sameEndpoint (h x hx)] at hxy hxy'
  rw [eq_iff_sameEndpoint (h x' hx')] at hx'y ⊢
  exact hx'y.trans (hxy.symm.trans hxy')

/-! ### The search -/

/-- The loops of the source are the greedy search. -/
theorem matchAddresses_eq_takesAll (addresses others : List Instance) :
    ListenerImpl.matchAddresses addresses others = takesAll Instance.eq addresses others := by
  induction addresses generalizing others with
  | nil => rfl
  | cons addr addresses ih =>
    rw [ListenerImpl.matchAddresses, takesAll, ih]

/-- What is asked of `hasCompatibleAddress`, where the addresses are IP addresses. -/
theorem hasCompatibleAddress_iff {a b : ListenerImpl} (ha : AllIp a.addresses) :
    a.hasCompatibleAddress b = true ↔
      a.socketType = b.socketType ∧ SameAddresses a.addresses b.addresses := by
  rw [ListenerImpl.hasCompatibleAddress]
  split_ifs with hdiffers
  · refine iff_of_false id fun hsame ↦ ?_
    exact hdiffers.elim (absurd hsame.1) (absurd hsame.2.length_eq)
  · obtain ⟨htype, hlength⟩ := not_or.1 hdiffers
    rw [matchAddresses_eq_takesAll, takesAll_iff (not_not.1 hlength)
      (difunctional_eq ha b.addresses)]
    exact (and_iff_right (not_not.1 htype)).symm

/-- **`hasCompatibleAddress` decides equality of multisets** on listeners with IP addresses. -/
theorem compatible_iff_same_multiset :
    (∀ a b : IpListener, a.impl.hasCompatibleAddress b.impl = true ↔
      a.impl.socketType = b.impl.socketType ∧ SameAddresses a.impl.addresses b.impl.addresses) ∧
    (Equivalence fun a b : IpListener ↦ a.impl.hasCompatibleAddress b.impl = true) ∧
    ∀ (a b : IpListener) (addresses others : List Instance), a.impl.addresses.Perm addresses →
      b.impl.addresses.Perm others →
      { a.impl with addresses }.hasCompatibleAddress { b.impl with addresses := others } =
        a.impl.hasCompatibleAddress b.impl := by
  refine ⟨fun a b ↦ hasCompatibleAddress_iff a.allIp, ⟨fun a ↦ ?_, ?_, ?_⟩, ?_⟩
  · exact (hasCompatibleAddress_iff a.allIp).2 ⟨rfl, .of_perm (.refl _)⟩
  · intro a b h
    obtain ⟨htype, hsame⟩ := (hasCompatibleAddress_iff a.allIp).1 h
    exact (hasCompatibleAddress_iff b.allIp).2 ⟨htype.symm, hsame.symm a.allIp⟩
  · intro a b c hab hbc
    obtain ⟨htype, hsame⟩ := (hasCompatibleAddress_iff a.allIp).1 hab
    obtain ⟨htype', hsame'⟩ := (hasCompatibleAddress_iff b.allIp).1 hbc
    exact (hasCompatibleAddress_iff a.allIp).2 ⟨htype.trans htype', hsame.trans hsame' a.allIp⟩
  · intro a b addresses others ha hb
    have hip : AllIp addresses := fun x hx ↦ a.allIp x (ha.mem_iff.2 hx)
    rw [Bool.eq_iff_iff, hasCompatibleAddress_iff hip, hasCompatibleAddress_iff a.allIp]
    -- the multisets are the same ones
    rw [SameAddresses, SameAddresses, Multiset.coe_eq_coe.2 ha, Multiset.coe_eq_coe.2 hb]

/-- A listener on some ports of all IPv4 interfaces. -/
def IpListener.ofPorts (ports : List (BitVec 32)) : IpListener where
  impl := { ListenerImpl.construct 0 [] [] false false with
    addresses := ports.map fun port ↦ .ipv4 (.ofPort port) }
  allIp x hx := by
    obtain ⟨port, -, rfl⟩ := List.mem_map.1 hx
    rfl

/-- The order of the ports does not matter, how often there is one does. -/
theorem compatible_iff_same_multiset_ports :
    (IpListener.ofPorts [80, 81]).impl.hasCompatibleAddress (IpListener.ofPorts [81, 80]).impl =
      true ∧
      ¬SameAddresses (IpListener.ofPorts [80, 80]).impl.addresses
        (IpListener.ofPorts [80, 81]).impl.addresses := by
  constructor
  · exact (compatible_iff_same_multiset.1 _ _).2 ⟨rfl, .of_perm (List.Perm.swap _ _ _)⟩
  · intro hsame
    have hcompatible := (compatible_iff_same_multiset.1 (.ofPorts [80, 80]) (.ofPorts [80, 81])).2
      ⟨rfl, hsame⟩
    exact absurd hcompatible (by decide)

end TcpServer.Server
