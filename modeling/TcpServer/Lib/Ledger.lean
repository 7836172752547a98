import Mathlib.Algebra.BigOperators.Group.Multiset.Basic
import Mathlib.Algebra.Order.Ring.Int
import Mathlib.Algebra.BigOperators.Group.Finset.Piecewise

/-!
# Obligations

Objects that come and go may owe calls: what an object owes is a list of events that its release
appends to the log. Some events open an obligation and some settle it, and a valuation of events is
*balanced* when the two cancel. For a balanced valuation the value of all that is owed, plus that of
the log, never changes, whichever way objects are created, released, replaced by others that owe the
same, or exchange what they owe.

`Conserves` is that law as a relation between two moments. It composes (`Conserves.trans`), it
ignores bystanders (`Conserves.frame`), and there is one rule for each elementary move. Since it is
stated for every balanced valuation at once, a development picks the valuation only when it reads
the law off a run: the one that counts a single kind of event, or the one that adds up amounts.
-/

namespace TcpServer.Ledger

variable {E O : Type*}

/-- The value of a list of events. -/
def value (g : E → ℤ) (events : List E) : ℤ := (events.map g).sum

@[simp] theorem value_nil (g : E → ℤ) : value g [] = 0 := rfl

@[simp] theorem value_cons (g : E → ℤ) (e : E) (es : List E) :
    value g (e :: es) = g e + value g es := by
  simp [value]

@[simp] theorem value_append (g : E → ℤ) (es es' : List E) :
    value g (es ++ es') = value g es + value g es' := by
  simp [value]

variable (owes : O → List E)

/-- The value of what the objects `S` owe. -/
def owed (g : E → ℤ) (S : Multiset O) : ℤ := (S.map fun o ↦ value g (owes o)).sum

@[simp] theorem owed_zero (g : E → ℤ) : owed owes g 0 = 0 := by
  simp [owed]

@[simp] theorem owed_add (g : E → ℤ) (S T : Multiset O) :
    owed owes g (S + T) = owed owes g S + owed owes g T := by
  simp [owed]

@[simp] theorem owed_singleton (g : E → ℤ) (o : O) : owed owes g {o} = value g (owes o) := by
  simp [owed]

/-- From the objects `S` and the log `es` to the objects `S'` and the log `es'`, what is owed and
what is logged have not changed in value. -/
def Conserves (balanced : (E → ℤ) → Prop) (S : Multiset O) (es : List E) (S' : Multiset O)
    (es' : List E) : Prop :=
  ∀ g, balanced g → owed owes g S' + value g es' = owed owes g S + value g es

variable {owes} {balanced : (E → ℤ) → Prop} {S S' S'' : Multiset O} {es es' es'' : List E}

theorem Conserves.refl (S : Multiset O) (es : List E) : Conserves owes balanced S es S es :=
  fun _ _ ↦ rfl

/-- The law holds from one moment to a third if it holds on the way. -/
theorem Conserves.trans (h : Conserves owes balanced S es S' es')
    (h' : Conserves owes balanced S' es' S'' es'') : Conserves owes balanced S es S'' es'' :=
  fun g hg ↦ (h' g hg).trans (h g hg)

/-- Bystanders keep what they owe. -/
theorem Conserves.frame (h : Conserves owes balanced S es S' es') (R : Multiset O) :
    Conserves owes balanced (R + S) es (R + S') es' := by
  intro g hg
  have := h g hg
  simp only [owed_add]
  omega

/-- A release logs what was owed. -/
theorem conserves_release (o : O) (es : List E) :
    Conserves owes balanced {o} es 0 (es ++ owes o) := by
  intro g _
  simp only [owed_zero, owed_singleton, value_append]
  omega

/-- An object may come into being owing something, if that is balanced by what is logged. -/
theorem conserves_create {o : O} {new : List E}
    (h : ∀ g, balanced g → value g (owes o) + value g new = 0) (es : List E) :
    Conserves owes balanced 0 es {o} (es ++ new) := by
  intro g hg
  have := h g hg
  simp only [owed_zero, owed_singleton, value_append]
  omega

/-- Objects may exchange what they owe, and take on more if that is balanced by what is logged. -/
theorem conserves_exchange {new : List E}
    (h : ∀ g, balanced g → owed owes g S' + value g new = owed owes g S) (es : List E) :
    Conserves owes balanced S es S' (es ++ new) := by
  intro g hg
  have := h g hg
  simp only [value_append]
  omega

/-! ### Totals over parties

A move changes what one or two of finitely many parties have; the total changes accordingly. -/

section Totals

variable {ι β M : Type*} [Fintype ι] [DecidableEq ι] [AddCommMonoid M]

/-- A sum over all indices, with one of them set apart. -/
theorem exists_sum_update (f : β → M) (x : ι → β) (i : ι) :
    ∃ R, ∑ j, f (x j) = R + f (x i) ∧ ∀ y, ∑ j, f (Function.update x i y j) = R + f y := by
  have hall (y : β) : ∑ j, f (Function.update x i y j) = ∑ j ∈
      Finset.univ \ {i}, f (x j) + f y := by
    have := Finset.sum_update_of_mem (Finset.mem_univ i) (fun j ↦ f (x j)) (f y)
    rw [add_comm, ← this]
    exact Finset.sum_congr rfl fun j _ ↦ by
      rw [Function.apply_update (fun _ ↦ f)]
  refine ⟨_, ?_, hall⟩
  rw [← hall, Function.update_eq_self]

/-- With two of them set apart. -/
theorem exists_sum_update₂ (f : β → M) (x : ι → β) {i j : ι} (hij : i ≠ j) :
    ∃ R, ∑ k, f (x k) = R + (f (x i) + f (x j)) ∧
      ∀ y z, ∑ k, f (Function.update (Function.update x i y) j z k) = R + (f y + f z) := by
  have hall (y z : β) : ∑ k, f (Function.update (Function.update x i y) j z k) =
      ∑ k ∈ (Finset.univ \ {j}) \ {i}, f (x k) + (f y + f z) := by
    have hj := Finset.sum_update_of_mem (Finset.mem_univ j) (fun k ↦ f (Function.update x i y k))
      (f z)
    have hi := Finset.sum_update_of_mem (s := Finset.univ \ {j}) (i := i) (by simp [hij])
      (fun k ↦ f (x k)) (f y)
    have hmap (g : ι → β) (l : ι) (v : β) (k : ι) :
        f (Function.update g l v k) = Function.update (fun k ↦ f (g k)) l (f v) k := by
      rw [Function.apply_update (fun _ ↦ f)]
    simp only [hmap] at hj ⊢
    rw [hj, hi, add_comm, add_comm (f y), add_assoc]
  refine ⟨_, ?_, hall⟩
  have := hall (x i) (x j)
  rwa [Function.update_eq_self, Function.update_eq_self] at this

end Totals

end TcpServer.Ledger
