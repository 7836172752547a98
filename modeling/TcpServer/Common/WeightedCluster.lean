import TcpServer.Lib.Cursor

/-!
# Clusters picked by weight

`WeightedClusterUtil::pickCluster` lays the weights of the clusters out behind each other and
returns the cluster into whose interval the random value falls. Nothing stands behind the loop any
more, so a call that gets there has no result.

The interval of a cluster begins where those before it end, and the last one ends at the total
weight, so the random value modulo the total falls into exactly one of them. The sums are of 64 bits
and could wrap; they do not where the total weight is the sum of the weights (`IsTotal`), which is
what the callers compute it as. That each cluster is picked as often as its weight says is counted
over all residues.
-/

namespace TcpServer.Common

open Cursor

variable {α : Type*}

/-- The loop, from the cluster on whose interval is to begin at `begin`. The reference that it
returns is an index here. -/
def pickClusterFrom (clusterWeight : α → UInt64) (selectedValue : UInt64) :
    UInt64 → List α → Option ℕ
  | _, [] => none
  | begin, cluster :: clusters =>
    let end' := begin + clusterWeight cluster
    if begin ≤ selectedValue ∧ selectedValue < end' then some 0
    else (pickClusterFrom clusterWeight selectedValue end' clusters).map (· + 1)

/-- `WeightedClusterUtil::pickCluster`. The assertion that `ignoreOverflow` is for is commented
out. -/
def pickCluster (clusterWeight : α → UInt64) (weightedClusters : List α)
    (totalClusterWeight randomValue : UInt64) (_ignoreOverflow : Bool) : Option ℕ :=
  pickClusterFrom clusterWeight (randomValue % totalClusterWeight) 0 weightedClusters

/-- The weights as numbers. -/
def weights (clusterWeight : α → UInt64) (clusters : List α) : List ℕ :=
  clusters.map fun cluster ↦ (clusterWeight cluster).toNat

/-- The total weight is the sum of the weights, which is a number of 64 bits then, and not zero. -/
structure IsTotal (clusterWeight : α → UInt64) (clusters : List α) (total : UInt64) : Prop where
  /-- Some cluster has a weight. -/
  pos : 0 < (weights clusterWeight clusters).sum
  /-- The total is the sum, as a number without bounds. -/
  sum_eq : total.toNat = (weights clusterWeight clusters).sum

variable {clusterWeight : α → UInt64} {clusters : List α} {total : UInt64} {i : ℕ}

/-- While `end` is a number of 64 bits, the loop finds the interval of the value. -/
theorem pickClusterFrom_eq_some_iff {selectedValue begin : UInt64}
    (hbegin : begin.toNat ≤ selectedValue.toNat)
    (hfits : begin.toNat + (weights clusterWeight clusters).sum < 2 ^ 64) :
    pickClusterFrom clusterWeight selectedValue begin clusters = some i ↔
      Within (weights clusterWeight clusters) (selectedValue.toNat - begin.toNat) i := by
  induction clusters generalizing begin i with
  | nil => exact iff_of_false (fun h ↦ nomatch h) not_within_nil
  | cons cluster clusters ih =>
    rw [weights, List.map_cons, List.sum_cons] at hfits
    have hend : (begin + clusterWeight cluster).toNat =
        begin.toNat + (clusterWeight cluster).toNat := by
      rw [UInt64.toNat_add, Nat.mod_eq_of_lt (by omega)]
    show (if begin ≤ selectedValue ∧ selectedValue < begin + clusterWeight cluster then some 0
      else (pickClusterFrom clusterWeight selectedValue (begin + clusterWeight cluster)
        clusters).map
        (· + 1)) = some i ↔ Within ((clusterWeight cluster).toNat :: weights clusterWeight clusters)
          _ i
    split_ifs with hin
    · have hzero : Within ((clusterWeight cluster).toNat :: weights clusterWeight clusters)
          (selectedValue.toNat - begin.toNat) 0 := by
        have := hin.2
        rw [UInt64.lt_iff_toNat_lt, hend] at this
        exact within_cons_zero.2 (by omega)
      constructor
      · intro h
        exact Option.some.inj h ▸ hzero
      · intro h
        rw [h.unique hzero]
    · have hle : (begin + clusterWeight cluster).toNat ≤ selectedValue.toNat := by
        by_contra hlt
        exact hin ⟨UInt64.le_iff_toNat_le.2 hbegin, UInt64.lt_iff_toNat_lt.2 (Nat.not_le.1 hlt)⟩
      have hrest : (begin + clusterWeight cluster).toNat + (weights clusterWeight clusters).sum <
          2 ^ 64 := by
        rw [hend]
        show begin.toNat + _ + (clusters.map _).sum < _
        omega
      rw [hend] at hle
      match i with
      | 0 =>
        refine iff_of_false (fun h ↦ ?_) fun h ↦ ?_
        · obtain ⟨k, -, hk⟩ := Option.map_eq_some_iff.1 h
          exact Nat.succ_ne_zero k hk
        · have := within_cons_zero.1 h
          omega
      | j + 1 =>
        have hsub : selectedValue.toNat - begin.toNat - (clusterWeight cluster).toNat =
            selectedValue.toNat - (begin + clusterWeight cluster).toNat := by
          rw [hend, Nat.sub_sub]
        rw [within_cons_succ, hsub, ← ih (hend ▸ hle) hrest, and_iff_right (by omega),
          Option.map_eq_some_iff]
        exact ⟨fun ⟨k, hk, hkj⟩ ↦ Nat.succ.inj hkj ▸ hk, fun h ↦ ⟨j, h, rfl⟩⟩

/-- The cluster picked is the one whose interval has the residue. -/
theorem pickCluster_eq_some_iff (h : IsTotal clusterWeight clusters total) {randomValue : UInt64}
    {ignoreOverflow : Bool} :
    pickCluster clusterWeight clusters total randomValue ignoreOverflow = some i ↔
      Within (weights clusterWeight clusters)
        (randomValue.toNat % (weights clusterWeight clusters).sum) i := by
  have hfits : (0 : UInt64).toNat + (weights clusterWeight clusters).sum < 2 ^ 64 := by
    rw [← h.sum_eq, UInt64.toNat_zero, Nat.zero_add]
    exact total.toNat_lt
  rw [pickCluster, pickClusterFrom_eq_some_iff (Nat.zero_le _) hfits, UInt64.toNat_mod, h.sum_eq]
  rfl

/-- The weight of a cluster by its index. -/
theorem getElem?_weights (hi : i < clusters.length) :
    (weights clusterWeight clusters)[i]? = some (clusterWeight clusters[i]).toNat := by
  rw [weights, List.getElem?_map, List.getElem?_eq_getElem hi]
  rfl

/-- **A cluster is picked, and as often as its weight says.** Every random value picks the one
cluster into whose interval it falls; of the residues, as many as its weight pick a cluster. -/
theorem pickCluster_spec (h : IsTotal clusterWeight clusters total) (ignoreOverflow : Bool) :
    (∀ randomValue, ∃ i < clusters.length,
      pickCluster clusterWeight clusters total randomValue ignoreOverflow = some i ∧
        ∀ j, Within (weights clusterWeight clusters)
          (randomValue.toNat % (weights clusterWeight clusters).sum) j ↔ j = i) ∧
    ∀ i, ∀ hi : i < clusters.length,
      ((Finset.range (weights clusterWeight clusters).sum).filter fun r ↦
        pickCluster clusterWeight clusters total (.ofNat r) ignoreOverflow = some i).card =
          (clusterWeight clusters[i]).toNat ∧
      (clusterWeight clusters[i] = 0 → ∀ randomValue,
        pickCluster clusterWeight clusters total randomValue ignoreOverflow ≠ some i) := by
  refine ⟨fun randomValue ↦ ?_, fun i hi ↦ ⟨?_, fun hzero randomValue hpick ↦ ?_⟩⟩
  · obtain ⟨i, hi⟩ := exists_within (Nat.mod_lt randomValue.toNat h.pos)
    have hlt : i < (weights clusterWeight clusters).length := by
      obtain ⟨len, hlen, -⟩ := hi.pos
      exact (List.getElem?_eq_some_iff.1 hlen).1
    rw [weights, List.length_map] at hlt
    exact ⟨i, hlt, (pickCluster_eq_some_iff h).2 hi,
      fun j ↦ ⟨fun hj ↦ hj.unique hi, fun hj ↦ hj ▸ hi⟩⟩
  · rw [← card_within (getElem?_weights hi)]
    refine congrArg Finset.card (Finset.filter_congr fun r hr ↦ ?_)
    have hr : r < (weights clusterWeight clusters).sum := Finset.mem_range.1 hr
    have htoNat : (UInt64.ofNat r).toNat = r :=
      UInt64.toNat_ofNat_of_lt' (hr.trans (h.sum_eq ▸ total.toNat_lt))
    rw [pickCluster_eq_some_iff h, htoNat, Nat.mod_eq_of_lt hr]
  · obtain ⟨len, hlen, hpos⟩ := ((pickCluster_eq_some_iff h).1 hpick).pos
    rw [getElem?_weights hi, hzero] at hlen
    exact absurd hpos (Option.some.inj hlen ▸ Nat.lt_irrefl 0)

/-- Three clusters, the second of which has no weight. -/
theorem pickCluster_three :
    IsTotal id ([2, 0, 3] : List UInt64) 5 ∧
      (∀ randomValue, ∃ i < [2, 0, 3].length, pickCluster id [2, 0, 3] 5 randomValue false =
        some i ∧
        ∀ j, Within (weights id [2, 0, 3])
          (randomValue.toNat % (weights id ([2, 0, 3] : List UInt64)).sum) j ↔ j = i) :=
  have h : IsTotal id ([2, 0, 3] : List UInt64) 5 := ⟨by decide, by decide⟩
  ⟨h, (pickCluster_spec h false).1⟩

end TcpServer.Common
