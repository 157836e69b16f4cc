import Mathlib.Logic.Relation

/-!
# Labelled transition systems

A system moves from state to state by labelled steps. The module gives its
reachable states, its finite runs, the rule that an inductive predicate holds
in every reachable state, the restriction of a system to the runs whose steps
meet a condition, and history variables.
-/

namespace transition

variable {State Label : Type*}

/-- Initial states and a labelled step relation. -/
structure System (State Label : Type*) where
  Init : State → Prop
  Step : State → Label → State → Prop

/-- The system of a partial step function: a refused label is no step. -/
def System.ofStep (Init : State → Prop) (step : State → Label → Option State) :
    System State Label where
  Init := Init
  Step s l s' := step s l = some s'

/-- The states that some finite sequence of steps reaches. -/
inductive System.Reachable (sys : System State Label) : State → Prop where
  | init {s : State} (h : sys.Init s) : sys.Reachable s
  | step {s s' : State} {l : Label} (h : sys.Reachable s) (hstep : sys.Step s l s') :
      sys.Reachable s'

/-- A finite sequence of consecutive steps. -/
inductive System.Run (sys : System State Label) : State → List Label → State → Prop where
  | nil (s : State) : sys.Run s [] s
  | cons {s s' s'' : State} {l : Label} {ls : List Label} (hstep : sys.Step s l s')
      (tail : sys.Run s' ls s'') : sys.Run s (l :: ls) s''

/-- The same system when only steps that meet `guard` are taken. -/
def System.restrict (sys : System State Label) (guard : State → Label → Prop) :
    System State Label where
  Init := sys.Init
  Step s l s' := guard s l ∧ sys.Step s l s'

/-- A predicate that holds initially and is kept by every step from a
reachable state holds in every reachable state. -/
theorem System.Reachable.invariant {sys : System State Label} {I : State → Prop}
    (hinit : ∀ s, sys.Init s → I s)
    (hstep : ∀ s l s', sys.Reachable s → I s → sys.Step s l s' → I s')
    {s : State} (h : sys.Reachable s) : I s := by
  induction h with
  | init h => exact hinit _ h
  | step h hs ih => exact hstep _ _ _ h ih hs

theorem System.Reachable.run {sys : System State Label} {s s' : State} {ls : List Label}
    (h : sys.Reachable s) (hrun : sys.Run s ls s') : sys.Reachable s' := by
  induction hrun with
  | nil => exact h
  | cons hstep _ ih => exact ih (h.step hstep)

/-- A run passes through a state between any two parts of its labels. -/
theorem System.run_append {sys : System State Label} {s s' : State} {ls₁ ls₂ : List Label} :
    sys.Run s (ls₁ ++ ls₂) s' ↔ ∃ m, sys.Run s ls₁ m ∧ sys.Run m ls₂ s' := by
  induction ls₁ generalizing s with
  | nil =>
    refine ⟨fun h => ⟨s, .nil s, h⟩, ?_⟩
    rintro ⟨m, h, h'⟩
    cases h
    exact h'
  | cons l ls ih =>
    constructor
    · intro h
      cases h with
      | cons hstep tail =>
        obtain ⟨m, h, h'⟩ := ih.mp tail
        exact ⟨m, .cons hstep h, h'⟩
    · rintro ⟨m, h, h'⟩
      cases h with
      | cons hstep tail => exact .cons hstep (ih.mpr ⟨m, tail, h'⟩)

/-- A run of the restricted system is a run of the system. -/
theorem System.Run.of_restrict {sys : System State Label} {guard : State → Label → Prop}
    {s s' : State} {ls : List Label} (h : (sys.restrict guard).Run s ls s') : sys.Run s ls s' := by
  induction h with
  | nil s => exact .nil s
  | cons hstep _ ih => exact .cons hstep.2 ih

/-- A state that the restricted system reaches is one that the system reaches. -/
theorem System.Reachable.of_restrict {sys : System State Label} {guard : State → Label → Prop}
    {s : State} (h : (sys.restrict guard).Reachable s) : sys.Reachable s := by
  induction h with
  | init h => exact .init h
  | step _ hstep ih => exact ih.step hstep.2

/-- A condition may be replaced by one that it implies in reachable states. -/
theorem System.Reachable.weaken {sys : System State Label} {guard guard' : State → Label → Prop}
    (hguard : ∀ s l, sys.Reachable s → guard s l → guard' s l) {s : State}
    (h : (sys.restrict guard).Reachable s) : (sys.restrict guard').Reachable s := by
  induction h with
  | init h => exact .init h
  | step h hstep ih => exact ih.step ⟨hguard _ _ h.of_restrict hstep.1, hstep.2⟩

/-- An invariant of the whole system may be assumed of the restricted one. -/
theorem System.Reachable.restrict_invariant {sys : System State Label}
    {guard : State → Label → Prop} {I : State → Prop}
    (hinit : ∀ s, sys.Init s → I s)
    (hstep : ∀ s l s', sys.Reachable s → I s → guard s l → sys.Step s l s' → I s')
    {s : State} (h : (sys.restrict guard).Reachable s) : I s := by
  induction h with
  | init h => exact hinit _ h
  | step h hs ih => exact hstep _ _ _ h.of_restrict ih hs.1 hs.2

/-! ## History variables -/

variable {History : Type*} {start : State → History} {record : State → Label → History → History}

/-- The system with a history that every step writes and none reads. -/
def System.observe (sys : System State Label) (start : State → History)
    (record : State → Label → History → History) : System (State × History) Label where
  Init p := sys.Init p.1 ∧ p.2 = start p.1
  Step p l p' := sys.Step p.1 l p'.1 ∧ p'.2 = record p.1 l p.2

theorem System.Reachable.of_observe {sys : System State Label} {p : State × History}
    (h : (sys.observe start record).Reachable p) : sys.Reachable p.1 := by
  induction h with
  | init h => exact .init h.1
  | step _ hstep ih => exact ih.step hstep.1

/-- Whatever the system does has a history. -/
theorem System.Reachable.observed {sys : System State Label} {s : State} (h : sys.Reachable s) :
    ∃ r, (sys.observe start record).Reachable (s, r) := by
  induction h with
  | @init s h => exact ⟨start s, .init ⟨h, rfl⟩⟩
  | @step s s' l _ hstep ih =>
    obtain ⟨r, hr⟩ := ih
    exact ⟨record s l r, hr.step ⟨hstep, rfl⟩⟩

/-- An invariant of the states together with their histories. -/
theorem System.Reachable.observe_invariant {sys : System State Label} {I : State → History → Prop}
    (hinit : ∀ s, sys.Init s → I s (start s))
    (hstep : ∀ s r l s', sys.Reachable s → I s r → sys.Step s l s' → I s' (record s l r))
    {s : State} {r : History} (h : (sys.observe start record).Reachable (s, r)) : I s r := by
  refine h.invariant (I := fun p => I p.1 p.2) ?_ ?_
  · rintro ⟨s, r⟩ ⟨hs, hr⟩
    replace hr : r = start s := hr
    rw [hr]
    exact hinit s hs
  · rintro ⟨s, r⟩ l ⟨s', r'⟩ hreach hI ⟨hs, hr⟩
    replace hr : r' = record s l r := hr
    rw [hr]
    exact hstep s r l s' hreach.of_observe hI hs

/-! ## Computed runs -/

/-- Execute a list of labels, stopping at the first refused one. -/
def runLabels (step : State → Label → Option State) : State → List Label → Option State
  | s, [] => some s
  | s, l :: ls => (step s l).bind fun s' => runLabels step s' ls

theorem runLabels_run {Init : State → Prop} {step : State → Label → Option State}
    {s s' : State} {ls : List Label} (h : runLabels step s ls = some s') :
    (System.ofStep Init step).Run s ls s' := by
  induction ls generalizing s with
  | nil =>
    simp only [runLabels, Option.some.injEq] at h
    subst h
    exact .nil _
  | cons l ls ih =>
    obtain ⟨m, hm, hrest⟩ := Option.bind_eq_some_iff.mp h
    exact .cons hm (ih hrest)

theorem runLabels_reachable {Init : State → Prop} {step : State → Label → Option State}
    {s s' : State} {ls : List Label} (hinit : Init s) (h : runLabels step s ls = some s') :
    (System.ofStep Init step).Reachable s' :=
  System.Reachable.run (.init hinit) (runLabels_run h)

/-- The step function that refuses the steps that fail a test. -/
def checked (check : State → Label → Bool) (step : State → Label → Option State) (s : State)
    (l : Label) : Option State :=
  if check s l then step s l else none

/-- A run whose steps pass a test that is enough for `guard` is one of the
restricted system. -/
theorem runLabels_checked_run {Init : State → Prop} {step : State → Label → Option State}
    {guard : State → Label → Prop} {check : State → Label → Bool} {s s' : State} {ls : List Label}
    (hcheck : ∀ s l, check s l = true → guard s l)
    (h : runLabels (checked check step) s ls = some s') :
    ((System.ofStep Init step).restrict guard).Run s ls s' := by
  induction ls generalizing s with
  | nil =>
    simp only [runLabels, Option.some.injEq] at h
    subst h
    exact .nil _
  | cons l ls ih =>
    obtain ⟨m, hm, hrest⟩ := Option.bind_eq_some_iff.mp h
    unfold checked at hm
    split at hm
    · rename_i hs
      exact .cons ⟨hcheck s l hs, hm⟩ (ih hrest)
    · cases hm

theorem runLabels_checked {Init : State → Prop} {step : State → Label → Option State}
    {guard : State → Label → Prop} {check : State → Label → Bool} {s s' : State} {ls : List Label}
    (hcheck : ∀ s l, check s l = true → guard s l) (hinit : Init s)
    (h : runLabels (checked check step) s ls = some s') :
    ((System.ofStep Init step).restrict guard).Reachable s' :=
  System.Reachable.run (.init hinit) (runLabels_checked_run hcheck h)

/-- The step function that carries the history along. -/
def observed (step : State → Label → Option State) (record : State → Label → History → History)
    (p : State × History) (l : Label) : Option (State × History) :=
  (step p.1 l).map fun s' => (s', record p.1 l p.2)

theorem observe_ofStep {Init : State → Prop} {step : State → Label → Option State} :
    (System.ofStep Init step).observe start record =
      .ofStep (fun p => Init p.1 ∧ p.2 = start p.1) (observed step record) := by
  simp only [System.observe, System.ofStep, System.mk.injEq, true_and]
  funext p l p'
  obtain ⟨s', r'⟩ := p'
  simp only [observed, Option.map_eq_some_iff, Prod.mk.injEq, eq_iff_iff]
  constructor
  · rintro ⟨hs, hr⟩
    exact ⟨s', hs, rfl, hr.symm⟩
  · rintro ⟨s'', hs, rfl, hr⟩
    exact ⟨hs, hr.symm⟩

theorem runLabels_observed {Init : State → Prop} {step : State → Label → Option State} {s : State}
    {p : State × History} {ls : List Label} (hinit : Init s)
    (h : runLabels (observed step record) (s, start s) ls = some p) :
    ((System.ofStep Init step).observe start record).Reachable p := by
  rw [observe_ofStep]
  exact runLabels_reachable ⟨hinit, rfl⟩ h

/-- A run that can be computed ends in a state that meets a test. -/
theorem exists_of_any (step : State → Label → Option State) (s : State) (ls : List Label)
    (p : State → Bool) (h : (runLabels step s ls).any p = true) :
    ∃ s', runLabels step s ls = some s' ∧ p s' = true := by
  rwa [Option.any_eq_true] at h

end transition
