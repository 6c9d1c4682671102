import Mathlib.Data.List.Basic

/-!
# Runs of partial step functions

A machine is a step function `σ → ε → Option σ`: the event names one atomic step together with every
choice that step leaves open, and `none` means that the event is not enabled. A run is a list of
events, so an interleaving of several threads is a list too. The rules below lift a fact about one
step to every run, and a fact about the steps whose events meet a guard to the runs that keep it.
-/

namespace CodeSlices.Transition

variable {σ ε : Type*} (step : σ → ε → Option σ)

/-- Execute the events in order; `none` as soon as one of them is not enabled. -/
def exec : σ → List ε → Option σ
  | s, [] => some s
  | s, e :: es => (step s e).bind fun t => exec t es

@[simp]
theorem exec_nil (s : σ) : exec step s [] = some s := rfl

theorem exec_cons (s : σ) (e : ε) (es : List ε) :
    exec step s (e :: es) = (step s e).bind fun t => exec step t es := rfl

theorem exec_cons_eq_some_iff {s u : σ} {e : ε} {es : List ε} :
    exec step s (e :: es) = some u ↔ ∃ t, step s e = some t ∧ exec step t es = some u := by
  rw [exec_cons, Option.bind_eq_some_iff]

/-- The states some run from `init` ends in. -/
def Reachable (init s : σ) : Prop := ∃ es, exec step init es = some s

/-- Every event of the run is taken in a state in which it meets the guard. -/
def Guarded (guard : σ → ε → Prop) : σ → List ε → Prop
  | _, [] => True
  | s, e :: es => guard s e ∧ ∀ t, step s e = some t → Guarded guard t es

/-- Every state of the run is good, the first and the last one too. -/
def Throughout (good : σ → Prop) : σ → List ε → Prop
  | s, [] => good s
  | s, e :: es => good s ∧ ∀ t, step s e = some t → Throughout good t es

variable {step} {guard : σ → ε → Prop}

theorem guarded_cons_of_step {s t : σ} {e : ε} {es : List ε} (hstep : step s e = some t) :
    Guarded step guard s (e :: es) ↔ guard s e ∧ Guarded step guard t es := by
  rw [Guarded]
  constructor
  · rintro ⟨hguard, hrest⟩
    exact ⟨hguard, hrest t hstep⟩
  · rintro ⟨hguard, hrest⟩
    refine ⟨hguard, fun t' hstep' => ?_⟩
    have heq : t = t' := Option.some.inj (hstep.symm.trans hstep')
    exact heq ▸ hrest

instance decidableGuarded [∀ s e, Decidable (guard s e)] :
    ∀ (s : σ) (es : List ε), Decidable (Guarded step guard s es)
  | _, [] => isTrue trivial
  | s, e :: es =>
      match hstep : step s e with
      | none => decidable_of_iff (guard s e) (by simp [Guarded, hstep])
      | some t =>
          have := decidableGuarded t es
          decidable_of_iff (guard s e ∧ Guarded step guard t es) (guarded_cons_of_step hstep).symm

theorem exec_invariant {I : σ → Prop} (hstep : ∀ s e t, I s → step s e = some t → I t)
    {s t : σ} {es : List ε} (hs : I s) (hrun : exec step s es = some t) : I t := by
  induction es generalizing s with
  | nil => exact Option.some.inj hrun ▸ hs
  | cons e es ih =>
      obtain ⟨u, hu, hrest⟩ := (exec_cons_eq_some_iff step).mp hrun
      exact ih (hstep s e u hs hu) hrest

theorem Reachable.invariant {I : σ → Prop} (hstep : ∀ s e t, I s → step s e = some t → I t)
    {init s : σ} (hinit : I init) (hreach : Reachable step init s) : I s := by
  obtain ⟨es, hrun⟩ := hreach
  exact exec_invariant hstep hinit hrun

/-- When some step from every state in the invariant makes the measure smaller until the run is
done, every such state has a run that gets done. -/
theorem exists_exec_of_measure {I Done : σ → Prop} (measure : σ → Nat)
    (hstep : ∀ s, I s → ¬ Done s → ∃ e t, step s e = some t ∧ I t ∧ measure t < measure s)
    {s : σ} (hs : I s) : ∃ es t, exec step s es = some t ∧ Done t := by
  induction hn : measure s using Nat.strongRecOn generalizing s with
  | ind n ih =>
      by_cases hdone : Done s
      · exact ⟨[], s, rfl, hdone⟩
      · obtain ⟨e, u, hu, hI, hlt⟩ := hstep s hs hdone
        obtain ⟨es, t, hrun, ht⟩ := ih (measure u) (hn ▸ hlt) hI rfl
        exact ⟨e :: es, t, (exec_cons_eq_some_iff step).mpr ⟨u, hu, hrun⟩, ht⟩

/-- When a step keeps `Good` exactly if its event meets the guard, a run keeps `Good` exactly if it
is guarded. -/
theorem good_iff_guarded {I Good : σ → Prop} (hinv : ∀ s e t, I s → step s e = some t → I t)
    (hgood : ∀ s e t, I s → step s e = some t → (Good t ↔ Good s ∧ guard s e))
    {s t : σ} {es : List ε} (hs : I s) (hrun : exec step s es = some t) :
    Good t ↔ Good s ∧ Guarded step guard s es := by
  induction es generalizing s with
  | nil =>
      obtain rfl : s = t := Option.some.inj hrun
      exact (and_iff_left trivial).symm
  | cons e es ih =>
      obtain ⟨u, hu, hrest⟩ := (exec_cons_eq_some_iff step).mp hrun
      rw [ih (hinv s e u hs hu) hrest, hgood s e u hs hu, guarded_cons_of_step hu, and_assoc]

theorem Throughout.last {Good : σ → Prop} {s t : σ} {es : List ε}
    (hgood : Throughout step Good s es) (hrun : exec step s es = some t) : Good t := by
  induction es generalizing s with
  | nil => exact Option.some.inj hrun ▸ hgood
  | cons e es ih =>
      obtain ⟨u, hu, hrest⟩ := (exec_cons_eq_some_iff step).mp hrun
      exact ih (hgood.2 u hu) hrest

/-- When a step out of a good state leads to a good one exactly if its event meets the guard, a run
from a good state stays good exactly if it is guarded. -/
theorem throughout_iff_guarded {I Good : σ → Prop}
    (hinv : ∀ s e t, I s → step s e = some t → I t)
    (hgood : ∀ s e t, I s → Good s → step s e = some t → (Good t ↔ guard s e))
    (henabled : ∀ s e, step s e = none → guard s e)
    {s : σ} (es : List ε) (hs : I s) (hs' : Good s) :
    Throughout step Good s es ↔ Guarded step guard s es := by
  induction es generalizing s with
  | nil => exact iff_of_true hs' trivial
  | cons e es ih =>
      rw [Throughout, and_iff_right hs', Guarded]
      cases hstep : step s e with
      | none => exact iff_of_true nofun ⟨henabled s e hstep, nofun⟩
      | some u =>
          have hu := hinv s e u hs hstep
          have hguard := hgood s e u hs hs' hstep
          simp only [Option.some.injEq, forall_eq']
          constructor
          · intro hrest
            have hu' : Good u := by
              cases es with
              | nil => exact hrest
              | cons _ _ => exact hrest.1
            exact ⟨hguard.mp hu', (ih hu hu').mp hrest⟩
          · rintro ⟨hmeets, hrest⟩
            exact (ih hu (hguard.mpr hmeets)).mpr hrest

/-- What every step that meets its guard keeps, a guarded run keeps. -/
theorem Guarded.invariant {I : σ → Prop}
    (hstep : ∀ s e t, I s → guard s e → step s e = some t → I t) {s t : σ} {es : List ε}
    (hs : I s) (hguarded : Guarded step guard s es) (hrun : exec step s es = some t) : I t := by
  induction es generalizing s with
  | nil => exact Option.some.inj hrun ▸ hs
  | cons e es ih =>
      obtain ⟨u, hu, hrest⟩ := (exec_cons_eq_some_iff step).mp hrun
      obtain ⟨hguard, hguarded⟩ := (guarded_cons_of_step hu).mp hguarded
      exact ih (hstep s e u hs hguard hu) hguarded hrest

end CodeSlices.Transition
