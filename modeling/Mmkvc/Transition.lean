/-
# Runs of a labelled step function

A step function gives the state after an action, or nothing where the action is
not enabled.  `run` takes a list of actions; the rules below carry what one step
preserves to what a run preserves, also where a condition on the steps is needed.
-/
import Mathlib.Data.List.Basic
import Mathlib.Data.List.Induction

namespace Mmkvc

namespace Transition

variable {σ α : Type} {step : σ → α → Option σ}

/-- The state after the actions, if each of them is enabled in its turn. -/
def run (step : σ → α → Option σ) : σ → List α → Option σ
  | s, [] => some s
  | s, a :: as => (step s a).bind fun s' => run step s' as

/-- Each action of the run meets `P` in the state in which it is taken. -/
def AllSteps (step : σ → α → Option σ) (P : σ → α → Prop) : σ → List α → Prop
  | _, [] => True
  | s, a :: as => P s a ∧ ∀ s', step s a = some s' → AllSteps step P s' as

theorem run_cons {s s' : σ} {a : α} {as : List α} :
    run step s (a :: as) = some s' ↔ ∃ t, step s a = some t ∧ run step t as = some s' := by
  rw [run, Option.bind_eq_some_iff]

/-- Some actions, and then others. -/
theorem run_append {s s' : σ} {as bs : List α} :
    run step s (as ++ bs) = some s'
      ↔ ∃ t, run step s as = some t ∧ run step t bs = some s' := by
  induction as generalizing s with
  | nil => simp [run]
  | cons a as ih =>
    rw [List.cons_append, run_cons]
    constructor
    · rintro ⟨t, ht, hrun⟩
      obtain ⟨u, hu, hrun'⟩ := ih.mp hrun
      exact ⟨u, run_cons.mpr ⟨t, ht, hu⟩, hrun'⟩
    · rintro ⟨u, hu, hrun'⟩
      obtain ⟨t, ht, hrun⟩ := run_cons.mp hu
      exact ⟨t, ht, ih.mpr ⟨u, hrun, hrun'⟩⟩

/-- Two conditions on the steps of a run. -/
theorem AllSteps.and {P Q : σ → α → Prop} {s : σ} {as : List α} (hP : AllSteps step P s as)
    (hQ : AllSteps step Q s as) : AllSteps step (fun s a => P s a ∧ Q s a) s as := by
  induction as generalizing s with
  | nil => trivial
  | cons a as ih => exact ⟨⟨hP.1, hQ.1⟩, fun s' hs' => ih (hP.2 s' hs') (hQ.2 s' hs')⟩

instance decidableAllSteps {P : σ → α → Prop} [∀ s a, Decidable (P s a)] :
    ∀ (s : σ) (as : List α), Decidable (AllSteps step P s as)
  | _, [] => isTrue trivial
  | s, a :: as =>
    match h : step s a with
    | none => decidable_of_iff (P s a) ⟨fun hP => ⟨hP, fun s' hs' => by cases h.symm.trans hs'⟩,
        And.left⟩
    | some t =>
      have := decidableAllSteps (P := P) t as
      decidable_of_iff (P s a ∧ AllSteps step P t as)
        ⟨fun hP => ⟨hP.1, fun s' hs' => by cases h.symm.trans hs'; exact hP.2⟩,
          fun hP => ⟨hP.1, hP.2 t h⟩⟩

/-- Each action of a run is enabled. -/
theorem allSteps_isSome_of_run {s s' : σ} {as : List α} (hrun : run step s as = some s') :
    AllSteps step (fun s a => (step s a).isSome) s as := by
  induction as generalizing s with
  | nil => trivial
  | cons a as ih =>
    obtain ⟨t, ht, hrun⟩ := run_cons.mp hrun
    refine ⟨Option.isSome_iff_exists.mpr ⟨t, ht⟩, fun t' ht' => ?_⟩
    obtain rfl := Option.some.inj (ht.symm.trans ht')
    exact ih hrun

/-- A condition on the actions alone. -/
theorem allSteps_of_forall {P : α → Prop} {s : σ} {as : List α} (h : ∀ a ∈ as, P a) :
    AllSteps step (fun _ a => P a) s as := by
  induction as generalizing s with
  | nil => trivial
  | cons a as ih =>
    exact ⟨h a List.mem_cons_self, fun _ _ => ih fun b hb => h b (List.mem_cons_of_mem a hb)⟩

/-- A condition on the steps of a run carries over to one that it implies wherever an
invariant holds. -/
theorem AllSteps.imp {I : σ → Prop} {P Q : σ → α → Prop}
    (hstep : ∀ s a s', I s → P s a → step s a = some s' → I s')
    (himp : ∀ s a, I s → P s a → Q s a) {s : σ} {as : List α} (hs : I s)
    (hP : AllSteps step P s as) : AllSteps step Q s as := by
  induction as generalizing s with
  | nil => trivial
  | cons a as ih =>
    exact ⟨himp s a hs hP.1, fun s' hs' => ih (hstep s a s' hs hP.1 hs') (hP.2 s' hs')⟩

/-- **Invariance along a run whose steps meet a condition.** -/
theorem invariant_of_allSteps {I : σ → Prop} {P : σ → α → Prop}
    (hstep : ∀ s a s', I s → P s a → step s a = some s' → I s') {s s' : σ} {as : List α}
    (hs : I s) (hP : AllSteps step P s as) (hrun : run step s as = some s') : I s' := by
  induction as generalizing s with
  | nil =>
    obtain rfl := Option.some.inj hrun
    exact hs
  | cons a as ih =>
    obtain ⟨t, ht, hrun⟩ := run_cons.mp hrun
    exact ih (hstep s a t hs hP.1 ht) (hP.2 t ht) hrun

/-- **Runs that do not get stuck**: each action that meets the condition is enabled and
keeps the invariant. -/
theorem exists_run_of_allSteps {I : σ → Prop} {P : σ → α → Prop}
    (hstep : ∀ s a, I s → P s a → ∃ s', step s a = some s' ∧ I s') {s : σ} {as : List α}
    (hs : I s) (hP : AllSteps step P s as) : ∃ s', run step s as = some s' ∧ I s' := by
  induction as generalizing s with
  | nil => exact ⟨s, rfl, hs⟩
  | cons a as ih =>
    obtain ⟨t, ht, hI⟩ := hstep s a hs hP.1
    obtain ⟨s', hrun, hI'⟩ := ih hI (hP.2 t ht)
    exact ⟨s', run_cons.mpr ⟨t, ht, hrun⟩, hI'⟩

/-- **Invariance along every run.** -/
theorem invariant_of_run {I : σ → Prop} (hstep : ∀ s a s', I s → step s a = some s' → I s')
    {s s' : σ} {as : List α} (hs : I s) (hrun : run step s as = some s') : I s' := by
  have htrue : AllSteps step (fun _ _ => True) s as := by
    clear hrun
    induction as generalizing s with
    | nil => trivial
    | cons a as ih => exact ⟨trivial, fun t ht => ih (hstep s a t hs ht)⟩
  exact invariant_of_allSteps (fun s a s' hI _ => hstep s a s' hI) hs htrue hrun

/-- What a step that breaks the condition establishes lasts, so a run that ends
without it has met the condition throughout. -/
theorem allSteps_of_not_bad {I B : σ → Prop} {P : σ → α → Prop}
    (hI : ∀ s a s', I s → step s a = some s' → I s')
    (hbad : ∀ s a s', I s → ¬ P s a → step s a = some s' → B s')
    (hlast : ∀ s a s', I s → B s → step s a = some s' → B s') {s s' : σ} {as : List α}
    (hs : I s) (hrun : run step s as = some s') (hB : ¬ B s') : AllSteps step P s as := by
  induction as generalizing s with
  | nil => trivial
  | cons a as ih =>
    obtain ⟨t, ht, hrun⟩ := run_cons.mp hrun
    have hIt := hI s a t hs ht
    constructor
    · by_contra hP
      have hBI : B s' ∧ I s' := invariant_of_run (I := fun u => B u ∧ I u)
        (fun u b u' hu hstep => ⟨hlast u b u' hu.2 hu.1 hstep, hI u b u' hu.2 hstep⟩)
        ⟨hbad s a t hs hP ht, hIt⟩ hrun
      exact hB hBI.1
    · rintro t' ht'
      obtain rfl := Option.some.inj (ht.symm.trans ht')
      exact ih hIt hrun

/-- **Where a property breaks**: a property that each step keeps under a condition, and only
under it, holds after each step of a run that meets the condition throughout.  The invariant is
needed no further than the condition. -/
theorem allSteps_iff {I C : σ → Prop} {P Q : σ → α → Prop}
    (hstep : ∀ s a, I s → C s → Q s a →
      ∃ s', step s a = some s' ∧ (P s a → I s') ∧ (C s' ↔ P s a)) {s : σ} {as : List α}
    (hI : I s) (hC : C s) (hQ : AllSteps step Q s as) :
    AllSteps step (fun s a => ∀ s', step s a = some s' → C s') s as ↔ AllSteps step P s as := by
  induction as generalizing s with
  | nil => exact Iff.rfl
  | cons a as ih =>
    obtain ⟨t, ht, hIt, hiff⟩ := hstep s a hI hC hQ.1
    have hnext : ∀ {R : σ → Prop}, (∀ s', step s a = some s' → R s') ↔ R t := by
      intro R
      constructor
      · exact fun h => h t ht
      · intro h s' hs'
        rwa [← Option.some.inj (ht.symm.trans hs')]
    unfold AllSteps
    rw [hnext, hnext, hnext, hiff]
    constructor
    · rintro ⟨hP, hrest⟩
      exact ⟨hP, (ih (hIt hP) (hiff.mpr hP) (hQ.2 t ht)).mp hrest⟩
    · rintro ⟨hP, hrest⟩
      exact ⟨hP, (ih (hIt hP) (hiff.mpr hP) (hQ.2 t ht)).mpr hrest⟩

/-- **Invariants of the history**: what holds of the state and the actions that led to it. -/
theorem invariant_of_history {I : List α → σ → Prop}
    (hstep : ∀ as s a s', I as s → step s a = some s' → I (as ++ [a]) s') {s s' : σ}
    {as : List α} (hs : I [] s) (hrun : run step s as = some s') : I as s' := by
  induction as using List.reverseRecOn generalizing s' with
  | nil =>
    obtain rfl := Option.some.inj hrun
    exact hs
  | append_singleton as a ih =>
    obtain ⟨t, ht, hlast⟩ := run_append.mp hrun
    obtain ⟨u, hu, hlast⟩ := run_cons.mp hlast
    obtain rfl := Option.some.inj hlast
    exact hstep as t a u (ih ht) hu

/-- **Refinement**: a machine each of whose actions is some actions of another one, as long as
a condition is met, has runs that are runs of the other. -/
theorem run_of_refines {τ β : Type} {stepT : τ → β → Option τ} {f : α → List β}
    {P : σ → α → Prop} {R : σ → τ → Prop}
    (h : ∀ s t a s', R s t → P s a → step s a = some s' →
      ∃ t', run stepT t (f a) = some t' ∧ R s' t')
    {s s' : σ} {t : τ} {as : List α} (hR : R s t) (hP : AllSteps step P s as)
    (hrun : run step s as = some s') :
    ∃ t', run stepT t (as.flatMap f) = some t' ∧ R s' t' := by
  induction as generalizing s t with
  | nil =>
    obtain rfl := Option.some.inj hrun
    exact ⟨t, rfl, hR⟩
  | cons a as ih =>
    obtain ⟨u, hu, hrun⟩ := run_cons.mp hrun
    obtain ⟨v, hv, hRv⟩ := h s t a u hR hP.1 hu
    obtain ⟨t', hrest, hR'⟩ := ih hRv (hP.2 u hu) hrun
    rw [List.flatMap_cons]
    exact ⟨t', run_append.mpr ⟨v, hv, hrest⟩, hR'⟩

/-! ## Runs with results -/

variable {τ β : Type}

/-- The results of the actions and the state after them. -/
def outputs (step : σ → α → Option (β × σ)) : σ → List α → Option (List β × σ)
  | s, [] => some ([], s)
  | s, a :: as => (step s a).bind fun r => (outputs step r.2 as).map fun q => (r.1 :: q.1, q.2)

/-- The first action with its output, and the others. -/
theorem outputs_cons {step : σ → α → Option (β × σ)} {s s' : σ} {a : α} {as : List α}
    {bs : List β} : outputs step s (a :: as) = some (bs, s')
      ↔ ∃ b t bs', step s a = some (b, t) ∧ outputs step t as = some (bs', s') ∧ bs = b :: bs' := by
  rw [outputs, Option.bind_eq_some_iff]
  constructor
  · rintro ⟨⟨b, t⟩, hstep, h⟩
    obtain ⟨⟨bs', u⟩, hrest, heq⟩ := Option.map_eq_some_iff.mp h
    obtain ⟨rfl, rfl⟩ := Prod.mk.inj heq
    exact ⟨b, t, bs', hstep, hrest, rfl⟩
  · rintro ⟨b, t, bs', hstep, hrest, rfl⟩
    exact ⟨(b, t), hstep, by rw [hrest]; rfl⟩

/-- **Simulation**: a machine that answers each action as another one does gives the same
results along every run of the other. -/
theorem outputs_of_simulates {stepS : σ → α → Option (β × σ)} {stepT : τ → α → Option (β × τ)}
    {R : σ → τ → Prop}
    (h : ∀ s t a b t', R s t → stepT t a = some (b, t') → ∃ s', stepS s a = some (b, s') ∧ R s' t')
    {s : σ} {t t' : τ} {as : List α} {bs : List β} (hR : R s t)
    (hrun : outputs stepT t as = some (bs, t')) :
    ∃ s', outputs stepS s as = some (bs, s') ∧ R s' t' := by
  induction as generalizing s t bs with
  | nil =>
    obtain ⟨rfl, rfl⟩ := Prod.mk.inj (Option.some.inj hrun)
    exact ⟨s, rfl, hR⟩
  | cons a as ih =>
    obtain ⟨b, u, bs', hstep, hrest, rfl⟩ := outputs_cons.mp hrun
    obtain ⟨v, hstep', hRv⟩ := h s t a b u hR hstep
    obtain ⟨s', hrest', hR'⟩ := ih hRv hrest
    exact ⟨s', outputs_cons.mpr ⟨b, v, bs', hstep', hrest', rfl⟩, hR'⟩

/-- The state after an action that gives a result. -/
def next (step : σ → α → Option (β × σ)) (s : σ) (a : α) : Option σ := (step s a).map Prod.snd

/-- **Agreement**: two machines that answer each action in the same way, as long as the
actions meet a condition, give the same results along a run that meets it. -/
theorem exists_outputs_of_allSteps {stepS : σ → α → Option (β × σ)}
    {stepT : τ → α → Option (β × τ)} {P : σ → α → Prop} {R : σ → τ → Prop}
    (h : ∀ s t a, R s t → P s a →
      ∃ b s' t', stepS s a = some (b, s') ∧ stepT t a = some (b, t') ∧ R s' t')
    {s : σ} {t : τ} {as : List α} (hR : R s t) (hP : AllSteps (next stepS) P s as) :
    ∃ bs s' t', outputs stepS s as = some (bs, s') ∧ outputs stepT t as = some (bs, t')
      ∧ R s' t' := by
  induction as generalizing s t with
  | nil => exact ⟨[], s, t, rfl, rfl, hR⟩
  | cons a as ih =>
    obtain ⟨b, s', t', hs', ht', hR'⟩ := h s t a hR hP.1
    obtain ⟨bs, s'', t'', hrunS, hrunT, hR''⟩ := ih hR' (hP.2 s' (by rw [next, hs']; rfl))
    exact ⟨b :: bs, s'', t'', outputs_cons.mpr ⟨b, s', bs, hs', hrunS, rfl⟩,
      outputs_cons.mpr ⟨b, t', bs, ht', hrunT, rfl⟩, hR''⟩

end Transition

end Mmkvc
