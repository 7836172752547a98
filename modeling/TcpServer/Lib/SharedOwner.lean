import Mathlib.Data.List.Nodup

/-!
# Shared ownership

A value that is shared has owners: it comes with one, any owner may be copied, and when the last one
is dropped the value is released. Nobody can own a released value again, since a copy needs an
owner, so the release happens once (`Once.drop`).

Owners are told apart by keys, and the owners that there are at a time are a list without
repetition; dropping the last key empties it. How often the value was released is counted beside
them, and it is the program that says what a release does.
-/

namespace TcpServer.SharedOwner

variable {κ : Type*} [DecidableEq κ]

/-- `new` becomes an owner next to `old`. -/
def copy (old new : κ) (owners : List κ) : Option (List κ) :=
  if old ∈ owners ∧ new ∉ owners then some (new :: owners) else none

/-- An owner goes. -/
def drop (owner : κ) (owners : List κ) : Option (List κ) :=
  if owner ∈ owners then some (owners.erase owner) else none

/-- The owners are told apart, and the value has been released `n` times: when there is none left,
and not before. -/
structure Once (owners : List κ) (n : ℕ) : Prop where
  /-- The owners are told apart. -/
  nodup : owners.Nodup
  /-- The value is released exactly if there is none left. -/
  released : n = if owners = [] then 1 else 0

omit [DecidableEq κ] in
theorem once_singleton (k : κ) : Once [k] 0 := ⟨List.nodup_singleton k, rfl⟩

/-- A copy adds an owner. -/
theorem mem_of_copy {old new : κ} {owners owners' : List κ}
    (h : copy old new owners = some owners') :
    old ∈ owners ∧ ∀ k, k ∈ owners' ↔ k = new ∨ k ∈ owners := by
  rw [SharedOwner.copy] at h
  split_ifs at h with hmem
  obtain rfl := Option.some.inj h
  exact ⟨hmem.1, fun k ↦ List.mem_cons⟩

theorem Once.mem_of_drop {owners owners' : List κ} {n : ℕ} (h : Once owners n) {owner : κ}
    (hdrop : drop owner owners = some owners') : ∀ k, k ∈ owners' ↔ k ≠ owner ∧ k ∈ owners := by
  rw [SharedOwner.drop] at hdrop
  split_ifs at hdrop with hmem
  obtain rfl := Option.some.inj hdrop
  exact fun k ↦ h.nodup.mem_erase_iff

/-- Copying needs an owner, so the value has not been released. -/
theorem Once.copy {owners owners' : List κ} {n : ℕ} (h : Once owners n) {old new : κ}
    (hcopy : copy old new owners = some owners') : Once owners' n ∧ n = 0 := by
  rw [SharedOwner.copy] at hcopy
  split_ifs at hcopy with hmem
  obtain rfl := Option.some.inj hcopy
  have hne : owners ≠ [] := List.ne_nil_of_mem hmem.1
  have hn : n = 0 := by rw [h.released, if_neg hne]
  refine ⟨⟨h.nodup.cons hmem.2, ?_⟩, hn⟩
  rw [hn, if_neg (List.cons_ne_nil _ _)]

/-- The value is released with the last owner, and for the first time. -/
theorem Once.drop {owners owners' : List κ} {n : ℕ} (h : Once owners n) {owner : κ}
    (hdrop : drop owner owners = some owners') :
    n = 0 ∧ Once owners' (if owners' = [] then 1 else 0) := by
  rw [SharedOwner.drop] at hdrop
  split_ifs at hdrop with hmem
  obtain rfl := Option.some.inj hdrop
  refine ⟨?_, h.nodup.erase owner, rfl⟩
  rw [h.released, if_neg (List.ne_nil_of_mem hmem)]

end TcpServer.SharedOwner
