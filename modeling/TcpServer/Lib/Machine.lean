import Mathlib.Data.List.Induction

/-!
# Runs of a guarded machine

A machine is a step function `act → σ → Option σ`: an action that is not enabled in a state has no
successor. Interleavings need nothing more: an action names the party that moves, so a list of
actions *is* an interleaving, and a statement about every list is a statement about every order of
steps.

Three rules carry the inductions of the developments above this file.

* `invariant_of_run` moves an invariant along a run; `invariant_of_reachable` is its form for the
  states reached from one initial state.
* `invariant_of_meets` does the same for the runs whose every step meets a condition on the action
  and the state it is taken in. `Meets` is that condition as a recursion on the run, so that "in
  every run without such a step" is a hypothesis that can be evaluated.
* `simulation` matches the runs of one machine by runs of another.

A machine may be nondeterministic in two ways: which action comes next is always open, and what an
action does may be a relation (`Runs`). For the first a run is a list of actions, for the second a
run is derived. That something comes to an end in whatever order is `Settles`, with a measure that
every step of a kind lowers.
-/

namespace TcpServer.Machine

variable {σ act : Type*} (step : act → σ → Option σ)

/-- Take the actions in order; `none` as soon as one of them is not enabled. -/
def run : List act → σ → Option σ
  | [], s => some s
  | a :: as, s => (step a s).bind (run as)

/-- `s'` is the last state of some run from `s`. -/
def Reachable (s s' : σ) : Prop := ∃ as, run step as s = some s'

/-- Every step of the run is taken in a state where it meets `C`. -/
def Meets (C : act → σ → Prop) : List act → σ → Prop
  | [], _ => True
  | a :: as, s => C a s ∧ ∀ s', step a s = some s' → Meets C as s'

instance decidableMeets {C : act → σ → Prop} [∀ a s, Decidable (C a s)] :
    ∀ as s, Decidable (Meets step C as s)
  | [], _ => .isTrue trivial
  | a :: as, s =>
    have : Decidable (∀ s', step a s = some s' → Meets step C as s') :=
      match step a s with
      | none => .isTrue fun _ h ↦ nomatch h
      | some t =>
        have : Decidable (Meets step C as t) := decidableMeets as t
        decidable_of_iff (Meets step C as t)
          ⟨fun h _ ht ↦ Option.some.inj ht ▸ h, fun h ↦ h t rfl⟩
    inferInstanceAs (Decidable (_ ∧ _))

@[simp] theorem run_nil (s : σ) : run step [] s = some s := rfl

theorem run_cons (a : act) (as : List act) (s : σ) :
    run step (a :: as) s = (step a s).bind (run step as) := rfl

theorem run_cons_eq_some_iff {a : act} {as : List act} {s s' : σ} :
    run step (a :: as) s = some s' ↔ ∃ t, step a s = some t ∧ run step as t = some s' := by
  rw [run_cons, Option.bind_eq_some_iff]

/-- A run of two lists is a run of the first and then one of the second. -/
theorem run_append_eq_some_iff {as bs : List act} {s s' : σ} :
    run step (as ++ bs) s = some s' ↔ ∃ t, run step as s = some t ∧ run step bs t = some s' := by
  induction as generalizing s with
  | nil => simp
  | cons a as ih =>
    simp only [List.cons_append, run_cons_eq_some_iff, ih]
    constructor
    · rintro ⟨u, hu, t, ht, hs'⟩
      exact ⟨t, ⟨u, hu, ht⟩, hs'⟩
    · rintro ⟨t, ⟨u, hu, ht⟩, hs'⟩
      exact ⟨u, hu, t, ht, hs'⟩

theorem run_singleton (a : act) (s : σ) : run step [a] s = step a s := by
  rw [run_cons]
  cases step a s <;> rfl

theorem Reachable.refl (s : σ) : Reachable step s s := ⟨[], rfl⟩

theorem Reachable.trans {s t u : σ} (hst : Reachable step s t) (htu : Reachable step t u) :
    Reachable step s u := by
  obtain ⟨as, has⟩ := hst
  obtain ⟨bs, hbs⟩ := htu
  exact ⟨as ++ bs, (run_append_eq_some_iff step).2 ⟨t, has, hbs⟩⟩

/-- One more step from a reachable state. -/
theorem Reachable.tail {s t u : σ} {a : act} (hst : Reachable step s t) (htu : step a t = some u) :
    Reachable step s u :=
  hst.trans step ⟨[a], by rw [run_singleton, htu]⟩

variable {step}

/-- What one step preserves, a run preserves. -/
theorem invariant_of_run {I : σ → Prop}
    (hstep : ∀ a s s', I s → step a s = some s' → I s') {as : List act} {s s' : σ}
    (hrun : run step as s = some s') (hs : I s) : I s' := by
  induction as generalizing s with
  | nil => exact Option.some.inj hrun ▸ hs
  | cons a as ih =>
    obtain ⟨t, ht, hrun⟩ := (run_cons_eq_some_iff step).1 hrun
    exact ih hrun (hstep a s t hs ht)

/-- An invariant that holds initially holds in every reachable state. -/
theorem invariant_of_reachable {I : σ → Prop} {init : σ} (hinit : I init)
    (hstep : ∀ a s s', I s → step a s = some s' → I s') {s : σ}
    (hs : Reachable step init s) : I s := by
  obtain ⟨as, hrun⟩ := hs
  exact invariant_of_run hstep hrun hinit

/-- What relates the empty run to its state, and is kept when a run is prolonged by one step,
relates every run to its last state. -/
theorem run_induction {P : List act → σ → Prop} {init : σ} (hnil : P [] init)
    (hsnoc : ∀ as a s s', run step as init = some s → P as s → step a s = some s' →
      P (as ++ [a]) s')
    {as : List act} {s : σ} (hrun : run step as init = some s) : P as s := by
  induction as using List.reverseRecOn generalizing s with
  | nil => exact Option.some.inj hrun ▸ hnil
  | append_singleton as a ih =>
    obtain ⟨t, ht, hlast⟩ := (run_append_eq_some_iff step).1 hrun
    rw [run_singleton] at hlast
    exact hsnoc as a t s ht (ih ht) hlast

/-- What one step preserves under a condition, a run whose steps all meet it preserves. -/
theorem invariant_of_meets {I : σ → Prop} {C : act → σ → Prop}
    (hstep : ∀ a s s', I s → C a s → step a s = some s' → I s') {as : List act} {s s' : σ}
    (hrun : run step as s = some s') (hmeets : Meets step C as s) (hs : I s) : I s' := by
  induction as generalizing s with
  | nil => exact Option.some.inj hrun ▸ hs
  | cons a as ih =>
    obtain ⟨t, ht, hrun⟩ := (run_cons_eq_some_iff step).1 hrun
    exact ih hrun (hmeets.2 t ht) (hstep a s t hs hmeets.1 ht)

/-- Actions each of which lowers a measure are taken at most as often as the measure says. -/
theorem length_add_le_of_measure {I : σ → Prop} {P : act → Prop} {work : σ → ℕ}
    (hinv : ∀ a s s', I s → P a → step a s = some s' → I s')
    (hlower : ∀ a s s', I s → P a → step a s = some s' → work s' < work s) {as : List act}
    {s s' : σ} (hrun : run step as s = some s') (hs : I s) (has : ∀ a ∈ as, P a) :
    as.length + work s' ≤ work s := by
  induction as generalizing s with
  | nil =>
    have heq : s = s' := Option.some.inj hrun
    simp only [heq, List.length_nil, Nat.zero_add, Nat.le_refl]
  | cons a as ih =>
    obtain ⟨t, ht, hrun⟩ := (run_cons_eq_some_iff step).1 hrun
    have hfirst : work t < work s := hlower a s t hs (has a List.mem_cons_self) ht
    have hrest : as.length + work s' ≤ work t :=
      ih hrun (hinv a s t hs (has a List.mem_cons_self) ht)
        fun b hb ↦ has b (List.mem_cons_of_mem a hb)
    rw [List.length_cons]
    omega

/-- What the steps of a kind preserve, a run of such steps preserves. -/
theorem invariant_of_run_of_forall {I : σ → Prop} {P : act → Prop}
    (hinv : ∀ a s s', I s → P a → step a s = some s' → I s') {as : List act} {s s' : σ}
    (hrun : run step as s = some s') (hs : I s) (has : ∀ a ∈ as, P a) : I s' := by
  induction as generalizing s with
  | nil => exact Option.some.inj hrun ▸ hs
  | cons a as ih =>
    obtain ⟨t, ht, hrun⟩ := (run_cons_eq_some_iff step).1 hrun
    exact ih hrun (hinv a s t hs (has a List.mem_cons_self) ht)
      fun b hb ↦ has b (List.mem_cons_of_mem a hb)

/-- Steps of the kind `P` come to an end, after `n` of them at the latest, and where they do `Done`
holds. -/
structure Settles (step : act → σ → Option σ) (P : act → Prop) (Done : σ → Prop) (n : ℕ) (s : σ) :
    Prop where
  /-- No run of such steps is longer than `n`. -/
  length_le : ∀ as s', (∀ a ∈ as, P a) → run step as s = some s' → as.length ≤ n
  /-- Where none is possible any more, the end has come. -/
  done : ∀ as s', (∀ a ∈ as, P a) → run step as s = some s' → (∀ a, P a → step a s' = none) →
    Done s'
  /-- There is a run to the end. -/
  exists_run : ∃ as s', (∀ a ∈ as, P a) ∧ run step as s = some s' ∧ Done s'

/-- Steps of a kind that lower a measure come to an end. -/
theorem settles_of_measure {I Done : σ → Prop} {P : act → Prop} {work : σ → ℕ}
    (hinv : ∀ a s s', I s → P a → step a s = some s' → I s')
    (hlower : ∀ a s s', I s → P a → step a s = some s' → work s' < work s)
    (hdone : ∀ s, I s → (∀ a, P a → step a s = none) → Done s) {s : σ} (hs : I s) :
    Settles step P Done (work s) s where
  length_le as s' has hrun :=
    Nat.le_trans (Nat.le_add_right _ _) (length_add_le_of_measure hinv hlower hrun hs has)
  done as s' has hrun hstuck := hdone s' (invariant_of_run_of_forall hinv hrun hs has) hstuck
  exists_run := by
    induction hwork : work s using Nat.strongRecOn generalizing s with
    | _ n ih =>
      by_cases hstuck : ∀ a, P a → step a s = none
      · exact ⟨[], s, fun _ ha ↦ absurd ha List.not_mem_nil, rfl, hdone s hs hstuck⟩
      push Not at hstuck
      obtain ⟨a, ha, hne⟩ := hstuck
      obtain ⟨t, ht⟩ := Option.ne_none_iff_exists'.1 hne
      obtain ⟨as, s', has, hrun, hs'⟩ :=
        ih (work t) (hwork ▸ hlower a s t hs ha ht) (hinv a s t hs ha ht) rfl
      refine ⟨a :: as, s', ?_, (run_cons_eq_some_iff step).2 ⟨t, ht, hrun⟩, hs'⟩
      exact List.forall_mem_cons.2 ⟨ha, has⟩

theorem Settles.mono {Done : σ → Prop} {P : act → Prop} {n m : ℕ} {s : σ}
    (h : Settles step P Done n s) (hnm : n ≤ m) : Settles step P Done m s :=
  ⟨fun as s' has hrun ↦ Nat.le_trans (h.length_le as s' has hrun) hnm, h.done, h.exists_run⟩

/-- If every step of one machine is matched by a step of another, so is every run. -/
theorem simulation {τ : Type*} {stepT : act → τ → Option τ} {R : σ → τ → Prop}
    (hstep : ∀ a s t t', R s t → stepT a t = some t' → ∃ s', step a s = some s' ∧ R s' t')
    {as : List act} {s : σ} {t t' : τ} (hst : R s t) (hrun : run stepT as t = some t') :
    ∃ s', run step as s = some s' ∧ R s' t' := by
  induction as generalizing s t with
  | nil => exact ⟨s, rfl, Option.some.inj hrun ▸ hst⟩
  | cons a as ih =>
    obtain ⟨u, hu, hrun⟩ := (run_cons_eq_some_iff stepT).1 hrun
    obtain ⟨v, hv, hvu⟩ := hstep a s t u hst hu
    obtain ⟨s', hs', hR⟩ := ih hvu hrun
    exact ⟨s', (run_cons_eq_some_iff step).2 ⟨v, hv, hs'⟩, hR⟩

/-- A machine whose steps are steps of another, or none, when they are seen through `f`. -/
theorem reachable_of_map {τ act' : Type*} {stepT : act' → τ → Option τ} {I : τ → Prop} {f : τ → σ}
    {init : τ} (hinit : I init) (hinv : ∀ a t t', I t → stepT a t = some t' → I t')
    (hstep : ∀ a t t', I t → stepT a t = some t' → f t' = f t ∨ ∃ b, step b (f t) = some (f t'))
    {t : τ} (ht : Reachable stepT init t) : Reachable step (f init) (f t) := by
  refine (invariant_of_reachable (I := fun t ↦ I t ∧ Reachable step (f init) (f t))
    ⟨hinit, .refl step _⟩ (fun a t t' hI h ↦ ⟨hinv a t t' hI.1 h, ?_⟩) ht).2
  rcases hstep a t t' hI.1 h with heq | ⟨b, hb⟩
  · exact heq ▸ hI.2
  · exact hI.2.tail step hb

/-- Every step of a run meets the condition if the steps of both parts do. -/
theorem meets_append_iff {C : act → σ → Prop} {as bs : List act} {s : σ} :
    Meets step C (as ++ bs) s ↔
      Meets step C as s ∧ ∀ t, run step as s = some t → Meets step C bs t := by
  induction as generalizing s with
  | nil => simp [Meets]
  | cons a as ih =>
    simp only [List.cons_append, Meets, ih, run_cons_eq_some_iff]
    constructor
    · rintro ⟨hC, h⟩
      exact ⟨⟨hC, fun t ht ↦ (h t ht).1⟩, fun u ⟨t, ht, hu⟩ ↦ (h t ht).2 u hu⟩
    · rintro ⟨⟨hC, h⟩, h'⟩
      exact ⟨hC, fun t ht ↦ ⟨h t ht, fun u hu ↦ h' u ⟨t, ht, hu⟩⟩⟩

/-- The condition of `Meets`, step by step. -/
theorem meets_of_forall {C : act → σ → Prop} {as : List act} {s : σ}
    (h : ∀ bs a cs t, as = bs ++ a :: cs → run step bs s = some t → C a t) : Meets step C as s := by
  induction as generalizing s with
  | nil => trivial
  | cons a as ih =>
    refine ⟨h [] a as s rfl rfl, fun t ht ↦ ih fun bs b cs u hsplit hu ↦ ?_⟩
    refine h (a :: bs) b cs u (by rw [hsplit]; rfl) ?_
    exact (run_cons_eq_some_iff step).2 ⟨t, ht, hu⟩

/-- A condition that every enabled step meets holds along every run. -/
theorem meets_of_run {C : act → σ → Prop} (hC : ∀ a s s', step a s = some s' → C a s)
    {as : List act} {s s' : σ} (hrun : run step as s = some s') : Meets step C as s := by
  induction as generalizing s with
  | nil => trivial
  | cons a as ih =>
    obtain ⟨t, ht, hrest⟩ := (run_cons_eq_some_iff step).1 hrun
    refine ⟨hC a s t ht, fun u hu ↦ ?_⟩
    obtain rfl : t = u := Option.some.inj (ht.symm.trans hu)
    exact ih hrest

/-- `run_induction` for the runs whose steps all meet a condition. -/
theorem run_induction_of_meets {C : act → σ → Prop} {P : List act → σ → Prop} {init : σ}
    (hnil : P [] init)
    (hsnoc : ∀ as a s s', P as s → C a s → step a s = some s' → P (as ++ [a]) s')
    {as : List act} {s : σ} (hrun : run step as init = some s) (hmeets : Meets step C as init) :
    P as s := by
  induction as using List.reverseRecOn generalizing s with
  | nil => exact Option.some.inj hrun ▸ hnil
  | append_singleton as a ih =>
    obtain ⟨t, ht, hlast⟩ := (run_append_eq_some_iff step).1 hrun
    obtain ⟨hbefore, hafter⟩ := meets_append_iff.1 hmeets
    rw [run_singleton] at hlast
    exact hsnoc as a t s (ih ht hbefore) (hafter t ht).1 hlast

/-! ### Refinement

Where what an action does is left open, a run is a derivation with a state for each step, and a
machine refines it if it can be followed.
-/

/-- Runs of a machine that is given by a relation: what an action does may be left open. -/
inductive Runs {τ : Type*} (next : act → τ → τ → Prop) : List act → τ → τ → Prop
  | nil (t : τ) : Runs next [] t t
  | snoc {as : List act} {a : act} {t u v : τ} :
    Runs next as t u → next a u v → Runs next (as ++ [a]) t v

/-- If every step that meets a condition is enabled and matched, so is every run whose steps all
meet it. `P` relates the states of both machines and the actions so far. -/
theorem refinement_of_meets {τ : Type*} {next : act → τ → τ → Prop} {C : act → σ → Prop}
    {P : List act → σ → τ → Prop} {ops : List act} {init : σ} {t₀ : τ} (hnil : P [] init t₀)
    (hsnoc : ∀ as a s t, as ++ [a] <+: ops → run step as init = some s → P as s t → C a s →
      ∃ s' t', step a s = some s' ∧ next a t t' ∧ P (as ++ [a]) s' t')
    (hmeets : Meets step C ops init) :
    ∃ s t, run step ops init = some s ∧ Runs next ops t₀ t ∧ P ops s t := by
  suffices hprefixes : ∀ as, as <+: ops →
      ∃ s t, run step as init = some s ∧ Runs next as t₀ t ∧ P as s t from
    hprefixes ops List.prefix_rfl
  intro as
  induction as using List.reverseRecOn with
  | nil => exact fun _ ↦ ⟨init, t₀, rfl, .nil t₀, hnil⟩
  | append_singleton as a ih =>
    intro hops
    obtain ⟨s, t, hrun, hruns, hP⟩ := ih ((List.prefix_append as [a]).trans hops)
    have hC : C a s := by
      obtain ⟨rest, rfl⟩ := hops
      rw [List.append_assoc, meets_append_iff] at hmeets
      exact (hmeets.2 s hrun).1
    obtain ⟨s', t', hstep, hnext, hP'⟩ := hsnoc as a s t hops hrun hP hC
    refine ⟨s', t', ?_, hruns.snoc hnext, hP'⟩
    rw [run_append_eq_some_iff]
    exact ⟨s, hrun, by rw [run_singleton, hstep]⟩

end TcpServer.Machine
