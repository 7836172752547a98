import Mathlib.Data.List.Basic
import Mathlib.Data.List.Nodup
import Mathlib.Logic.Function.Basic
import Mathlib.Tactic.Common

/-!
# Chains of saved pointers

An object that installs itself in a global pointer saves the pointer it finds and puts it back when
it goes. The saved pointers chain the live objects, the newest first (`Linked`), as long as the
objects go in the opposite order of their coming: `Linked.unlink_head` says that this is enough, and
`Linked.follow_unlink_iff` that nothing less is.

An object that goes out of its turn puts a pointer back that skips those which have come after it,
and its own entry is gone, so the way from another pointer may end at it. What a walk along the
pointers meets is computed with fuel, as a chain could also lead back to itself.
-/

namespace TcpServer.Chain

variable {κ : Type*}

/-- The global pointer, and what each live object has saved; `next k = none` where `k` is not
live. -/
structure Links (κ : Type*) where
  /-- The global pointer. -/
  head : Option κ := none
  /-- What each live object has saved, which may be the null pointer. -/
  next : κ → Option (Option κ) := fun _ ↦ none

namespace Links

/-- The objects met on the way from a pointer, at most `fuel` of them; `none` where the way leads to
an object that is gone. -/
def follow (l : Links κ) : ℕ → Option κ → Option (List κ)
  | _, none => some []
  | 0, some _ => none
  | fuel + 1, some k => (l.next k).bind fun p ↦ (l.follow fuel p).map (k :: ·)

variable [DecidableEq κ]

/-- `k` saves the pointer and takes its place. -/
def link (k : κ) (l : Links κ) : Option (Links κ) :=
  if l.next k = none then some { head := some k, next := Function.update l.next k (some l.head) }
  else none

/-- `k` puts back what it has saved. -/
def unlink (k : κ) (l : Links κ) : Option (Links κ) :=
  (l.next k).map fun saved ↦ { head := saved, next := Function.update l.next k none }

end Links

/-- The way from a pointer to the end, through the objects of a list. -/
def Path (next : κ → Option (Option κ)) : Option κ → List κ → Prop
  | p, [] => p = none
  | p, k :: ks => p = some k ∧ ∃ q, next k = some q ∧ Path next q ks

/-- With enough fuel the walk meets the objects of the way. -/
theorem Path.follow {l : Links κ} {p : Option κ} {ks : List κ} (h : Path l.next p ks) {fuel : ℕ}
    (hfuel : ks.length ≤ fuel) : l.follow fuel p = some ks := by
  induction ks generalizing p fuel with
  | nil =>
    obtain rfl := h
    cases fuel <;> rfl
  | cons k ks ih =>
    obtain ⟨rfl, q, hq, hrest⟩ := h
    match fuel, hfuel with
    | fuel + 1, hfuel =>
      rw [Links.follow, hq, Option.bind_some, ih hrest (Nat.le_of_succ_le_succ hfuel),
        Option.map_some]

theorem Path.congr {next next' : κ → Option (Option κ)} {p : Option κ} {ks : List κ}
    (h : Path next p ks) (hsame : ∀ k ∈ ks, next' k = next k) : Path next' p ks := by
  induction ks generalizing p with
  | nil => exact h
  | cons k ks ih =>
    obtain ⟨rfl, q, hq, hrest⟩ := h
    refine ⟨rfl, q, (hsame k List.mem_cons_self).trans hq, ih hrest fun j hj ↦ ?_⟩
    exact hsame j (List.mem_cons_of_mem k hj)

/-- The way on from an object in the middle. -/
theorem Path.next_of_append {next : κ → Option (Option κ)} {p : Option κ} {pre post : List κ}
    {k : κ}
    (h : Path next p (pre ++ k :: post)) : ∃ q, next k = some q ∧ Path next q post := by
  induction pre generalizing p with
  | nil => exact h.2
  | cons j pre ih =>
    obtain ⟨-, q, -, hrest⟩ := h
    exact ih hrest

/-- The live objects, the newest first, are what the chain leads through. -/
structure Linked (l : Links κ) (live : List κ) : Prop where
  /-- The way from the pointer leads through the live objects. -/
  path : Path l.next l.head live
  /-- No object is met twice. -/
  nodup : live.Nodup
  /-- An object is live exactly if it has saved something. -/
  mem_iff : ∀ k, k ∈ live ↔ l.next k ≠ none

namespace Linked

variable {l l' : Links κ} {live : List κ} {k : κ}

theorem empty : Linked ({} : Links κ) [] :=
  ⟨rfl, List.nodup_nil, fun _ ↦ iff_of_false List.not_mem_nil fun h ↦ h rfl⟩

theorem head_eq (h : Linked l live) : l.head = live.head? := by
  match live, h.path with
  | [], hpath => exact hpath
  | k :: ks, hpath => exact hpath.1

/-- The walk meets the live objects. -/
theorem follow (h : Linked l live) {fuel : ℕ} (hfuel : live.length ≤ fuel) :
    l.follow fuel l.head = some live :=
  h.path.follow hfuel

variable [DecidableEq κ]

/-- A new object is in front of the others. -/
theorem link (h : Linked l live) (hlink : l.link k = some l') : Linked l' (k :: live) := by
  rw [Links.link] at hlink
  split_ifs at hlink with hnew
  obtain rfl := Option.some.inj hlink
  have hk : k ∉ live := fun hmem ↦ (h.mem_iff k).1 hmem hnew
  refine ⟨⟨rfl, l.head, Function.update_self .., h.path.congr fun j hj ↦ ?_⟩, h.nodup.cons hk,
    fun j ↦ ?_⟩
  · exact Function.update_of_ne (fun heq : j = k ↦ hk (heq ▸ hj)) ..
  · rw [List.mem_cons, h.mem_iff]
    show _ ↔ Function.update l.next k (some l.head) j ≠ none
    obtain rfl | hne := eq_or_ne j k
    · simp
    · simp [hne]

/-- What is left where an object has gone: its successors, reached from the pointer. -/
theorem follow_unlink (h : Linked l live) (hunlink : l.unlink k = some l') {fuel : ℕ}
    (hfuel : live.length ≤ fuel) :
    ∃ pre post, live = pre ++ k :: post ∧ l'.follow fuel l'.head = some post := by
  obtain ⟨saved, hsaved, rfl⟩ := Option.map_eq_some_iff.1 hunlink
  have hk : k ∈ live := (h.mem_iff k).2 (by simp [hsaved])
  obtain ⟨pre, post, rfl⟩ := List.append_of_mem hk
  obtain ⟨q, hq, hpath⟩ := h.path.next_of_append
  obtain rfl : q = saved := Option.some.inj (hq.symm.trans hsaved)
  have hnot : k ∉ post := (List.nodup_cons.1 (List.nodup_append.1 h.nodup).2.1).1
  have hpath' : Path (Function.update l.next k none) q post :=
    hpath.congr fun j hj ↦ Function.update_of_ne (fun heq : j = k ↦ hnot (heq ▸ hj)) ..
  refine ⟨pre, post, rfl, ?_⟩
  exact Path.follow (l := { head := q, next := Function.update l.next k none }) hpath'
    (by simp only [List.length_append, List.length_cons] at hfuel; omega)

/-- The newest object may go. -/
theorem unlink_head (h : Linked l live) (hunlink : l.unlink k = some l') (hhead : l.head = some k) :
    Linked l' (live.erase k) := by
  obtain ⟨saved, hsaved, rfl⟩ := Option.map_eq_some_iff.1 hunlink
  match live, h with
  | [], h => exact absurd (h.path.symm.trans hhead) (by simp)
  | j :: post, h =>
    obtain ⟨hj, q, hq, hpath⟩ := h.path
    obtain rfl : j = k := Option.some.inj (hj.symm.trans hhead)
    obtain rfl : q = saved := Option.some.inj (hq.symm.trans hsaved)
    obtain ⟨hnot, hnodup⟩ := List.nodup_cons.1 h.nodup
    rw [List.erase_cons_head]
    refine ⟨hpath.congr fun i hi ↦ Function.update_of_ne (fun heq : i = j ↦ hnot (heq ▸ hi)) ..,
      hnodup, fun i ↦ ?_⟩
    show _ ↔ Function.update l.next j none i ≠ none
    have hmem := h.mem_iff i
    obtain rfl | hne := eq_or_ne i j
    · simp [hnot]
    · simpa [hne] using hmem

/-- **Only the newest may go.** The chain leads through what is left exactly if it was the newest
object that went. -/
theorem follow_unlink_iff (h : Linked l live) (hunlink : l.unlink k = some l') {fuel : ℕ}
    (hfuel : live.length ≤ fuel) :
    l'.follow fuel l'.head = some (live.erase k) ↔ l.head = some k := by
  constructor
  · intro hfollow
    obtain ⟨pre, post, rfl, hpost⟩ := h.follow_unlink hunlink hfuel
    have heq : post = (pre ++ k :: post).erase k := Option.some.inj (hpost.symm.trans hfollow)
    have hlen := congrArg List.length heq
    rw [List.length_erase_of_mem (List.mem_append_right _ List.mem_cons_self), List.length_append,
      List.length_cons] at hlen
    obtain rfl : pre = [] := List.eq_nil_of_length_eq_zero (by omega)
    exact h.path.1
  · intro hhead
    refine (h.unlink_head hunlink hhead).follow (Nat.le_trans ?_ hfuel)
    exact List.length_erase_le

end Linked

end TcpServer.Chain
