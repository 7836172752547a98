import Mathlib.Data.Finset.Range
import Mathlib.Data.Set.Card
import Mathlib.Tactic.Common

/-!
# Elements of a list by their indices

`keep p k l` is what is left of a list whose first index is `k` if only the indices with `p` stay.
Where the indices to go are a set within the list, the rest is shorter by as many as there are in
the set (`length_keep`).

A list is cut, and the indices of its parts go on counting (`keep_append`), so that a loop which
works on parts of a list can be compared with the whole part by part.
-/

namespace TcpServer.Indices

variable {β : Type*}

/-- The elements whose indices satisfy `p`, where the first one has the index `k`. -/
def keep (p : ℕ → Bool) (k : ℕ) (l : List β) : List β :=
  ((l.zipIdx k).filter fun c ↦ p c.2).map Prod.fst

variable {p q : ℕ → Bool} {k : ℕ} {l l' : List β}

/-- What is kept of two lists, the second of which goes on counting. -/
theorem keep_append : keep p k (l ++ l') = keep p k l ++ keep p (k + l.length) l' := by
  rw [keep, List.zipIdx_append, List.filter_append, List.map_append]
  rfl

theorem keep_congr (h : ∀ i, k ≤ i → i < k + l.length → p i = q i) : keep p k l = keep q k l := by
  refine congrArg (List.map Prod.fst) (List.filter_congr fun c hc ↦ ?_)
  exact h c.2 (List.le_snd_of_mem_zipIdx hc) (List.snd_lt_add_of_mem_zipIdx hc)

theorem keep_eq_self (h : ∀ i, k ≤ i → i < k + l.length → p i = true) : keep p k l = l := by
  have hall : keep p k l = keep (fun _ ↦ true) k l := keep_congr h
  rw [hall, keep, List.filter_true]
  exact List.zipIdx_map_fst k l

theorem keep_eq_nil (h : ∀ i, k ≤ i → i < k + l.length → p i = false) : keep p k l = [] := by
  have hnone : keep p k l = keep (fun _ ↦ false) k l := keep_congr h
  rw [hnone, keep, List.filter_false]
  rfl

/-- As many elements go as there are indices to go. -/
theorem length_keep {S : Set ℕ} [DecidablePred (· ∈ S)] (hS : ∀ i ∈ S, i < l.length) :
    (keep (fun i ↦ decide (i ∉ S)) 0 l).length = l.length - S.ncard := by
  have hkeep : (keep (fun i ↦ decide (i ∉ S)) 0 l).length =
      (List.range l.length).countP fun i ↦ decide (i ∉ S) := by
    have hsnd : (l.zipIdx 0).map Prod.snd = List.range l.length := by
      rw [List.zipIdx_map_snd, List.range_eq_range']
    rw [keep, List.length_map, ← List.countP_eq_length_filter, ← hsnd, List.countP_map]
    rfl
  have hset : S = ((Finset.range l.length).filter (· ∈ S) : Finset ℕ) := by
    ext i
    rw [Finset.coe_filter, Set.mem_ofPred_eq, Finset.mem_range]
    exact ⟨fun hi ↦ ⟨hS i hi, hi⟩, And.right⟩
  have hcard : S.ncard = (List.range l.length).countP fun i ↦ decide (i ∈ S) := by
    rw [List.countP_eq_length_filter]
    calc S.ncard = ((Finset.range l.length).filter (· ∈ S) : Set ℕ).ncard := congrArg Set.ncard hset
      _ = ((Finset.range l.length).filter (· ∈ S)).card := Set.ncard_coe_finset _
      _ = _ := rfl
  have htotal := List.length_eq_countP_add_countP (fun i ↦ decide (i ∈ S))
      (l := List.range l.length)
  rw [List.length_range] at htotal
  simp only [decide_not, Bool.decide_eq_true] at htotal hkeep ⊢
  omega

end TcpServer.Indices
