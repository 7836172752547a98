import Mathlib.Algebra.BigOperators.Group.Finset.Basic
import Mathlib.Algebra.Order.BigOperators.Group.Finset
import Mathlib.Data.Fintype.Card

/-!
# Threads at places of their programs

The threads of a program are given by the place each of them is at, and a step takes one of them to
another place.

Some places are critical. A lock *guards* them when the threads at a critical place are those that
own the lock: then there is at most one (`Guards.unique`). A thread keeps this up if it becomes the
owner where it goes to a critical place (`Guards.acquire`), gives the lock back where it leaves
(`Guards.release`), and does neither elsewhere (`Guards.move`).

The work left is what the places of all threads still ask for; a step changes it by what the places
before and after it differ in (`work_update`).

A program with locks is described by saying which of its places are critical for which lock. Nothing
is assumed about fairness: the lemmas are about single steps, and the number of steps left is a sum
over the threads.
-/

namespace TcpServer.Threads

variable {τ Place : Type*} {critical : Place → Prop} {place : τ → Place} {owner : Option τ}

/-- Whoever is at a critical place owns the lock, and the owner is at one. -/
def Guards (critical : Place → Prop) (place : τ → Place) (owner : Option τ) : Prop :=
  ∀ t, critical (place t) ↔ owner = some t

/-- At most one thread is at a critical place. -/
theorem Guards.unique (h : Guards critical place owner) {t u : τ} (ht : critical (place t))
    (hu : critical (place u)) : t = u :=
  Option.some.inj (((h t).1 ht).symm.trans ((h u).1 hu))

/-- The lock is free when nobody is at a critical place. -/
theorem Guards.free (h : Guards critical place owner) (hplace : ∀ t, ¬critical (place t)) :
    owner = none := by
  cases howner : owner with
  | none => rfl
  | some t => exact absurd ((h t).2 howner) (hplace t)

variable [DecidableEq τ] {t : τ} {p : Place}

/-- A step within the critical places, or one outside of them. -/
theorem Guards.move (h : Guards critical place owner) (hp : critical p ↔ critical (place t)) :
    Guards critical (Function.update place t p) owner := by
  intro u
  by_cases hu : u = t
  · subst hu
    rw [Function.update_self, hp, h u]
  · rw [Function.update_of_ne hu, h u]

/-- A thread that takes the free lock becomes its owner. -/
theorem Guards.acquire (h : Guards critical place none) (hp : critical p) :
    Guards critical (Function.update place t p) (some t) := by
  intro u
  by_cases hu : u = t
  · subst hu
    simp only [Function.update_self, hp]
  · have hnot : ¬critical (place u) := by
      rw [h u]
      simp only [reduceCtorEq, not_false_eq_true]
    rw [Function.update_of_ne hu]
    exact iff_of_false hnot fun howner ↦ hu (Option.some.inj howner).symm

/-- The owner gives the lock back. -/
theorem Guards.release (h : Guards critical place owner) (ht : critical (place t))
    (hp : ¬critical p) : Guards critical (Function.update place t p) none := by
  intro u
  by_cases hu : u = t
  · subst hu
    simp only [Function.update_self, hp, reduceCtorEq]
  · have hnot : ¬critical (place u) := fun hcritical ↦ hu (h.unique hcritical ht)
    rw [Function.update_of_ne hu]
    exact iff_of_false hnot (by simp only [reduceCtorEq, not_false_eq_true])

/-- The work left to all threads, where a place has a number of steps ahead of it. -/
def work [Fintype τ] (ahead : Place → ℕ) (place : τ → Place) : ℕ := ∑ t, ahead (place t)

/-- A step to another place changes the work by what these places have ahead of them. -/
theorem work_update [Fintype τ] (ahead : Place → ℕ) :
    work ahead (Function.update place t p) + ahead (place t) = work ahead place + ahead p := by
  have hrest : ∑ u ∈ Finset.univ.erase t, ahead (Function.update place t p u) =
      ∑ u ∈ Finset.univ.erase t, ahead (place u) :=
    Finset.sum_congr rfl fun u hu ↦ by rw [Function.update_of_ne (Finset.ne_of_mem_erase hu)]
  rw [work, work, ← Finset.add_sum_erase _ _ (Finset.mem_univ t), hrest,
    ← Finset.add_sum_erase _ (fun u ↦ ahead (place u)) (Finset.mem_univ t)]
  rw [Function.update_self]
  omega

omit [DecidableEq τ] in
theorem work_le [Fintype τ] {ahead : Place → ℕ} {n : ℕ} (hahead : ∀ p, ahead p ≤ n) :
    work ahead place ≤ n * Fintype.card τ :=
  calc ∑ t, ahead (place t)
    _ ≤ ∑ _t : τ, n := Finset.sum_le_sum fun t _ ↦ hahead (place t)
    _ = n * Fintype.card τ := by
      rw [Finset.sum_const_nat fun _ _ ↦ rfl, Finset.card_univ, Nat.mul_comm]

end TcpServer.Threads
