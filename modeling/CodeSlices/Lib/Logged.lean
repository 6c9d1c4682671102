import Mathlib.Logic.Basic

/-!
# Runs with a log

Runs that may fail and that write down what they do. A run returns a value with a log when it does
so from every log it is started with, so that runs compose.
-/

namespace CodeSlices

abbrev Logged (ρ ε : Type) := StateT (List ρ) (Except ε)

namespace Logged

variable {ρ ε α β : Type} {P Q : ρ → Prop} {run : Logged ρ ε α} {next : α → Logged ρ ε β}
  {new new' old : List ρ} {a a' : α} {b : β} {e : ε}

def emit (r : ρ) : Logged ρ ε Unit := modify fun log => log ++ [r]

/-- The run returns `a` and writes `new`. -/
def Yields (run : Logged ρ ε α) (new : List ρ) (a : α) : Prop :=
  ∀ log, run log = .ok (a, log ++ new)

/-- The run returns `a` and writes only entries with the property. -/
def Returns (run : Logged ρ ε α) (P : ρ → Prop) (a : α) : Prop :=
  ∃ new, Yields run new a ∧ ∀ r ∈ new, P r

def Fails (run : Logged ρ ε α) (e : ε) : Prop :=
  ∀ log, run log = .error e

theorem Yields.pure (a : α) : Yields (pure a : Logged ρ ε α) [] a := by
  intro log
  rw [List.append_nil]
  rfl

theorem Yields.emit (r : ρ) : Yields (emit r : Logged ρ ε Unit) [r] () := fun _ => rfl

theorem Yields.lift {x : Except ε α} (hx : x = .ok a) :
    Yields (liftM x : Logged ρ ε α) [] a := by
  subst hx
  exact Yields.pure a

theorem Yields.bind (hrun : Yields run old a) (hnext : Yields (next a) new b) :
    Yields (run >>= next) (old ++ new) b := by
  intro log
  change (run log >>= fun p => next p.1 p.2) = _
  rw [hrun log, ← List.append_assoc]
  exact hnext (log ++ old)

theorem Fails.throw (e : ε) : Fails (throw e : Logged ρ ε α) e := fun _ => rfl

theorem Fails.bind (hrun : Fails run e) : Fails (run >>= next) e := by
  intro log
  change (run log >>= fun p => next p.1 p.2) = _
  rw [hrun log]
  rfl

theorem Yields.bind_fails (hrun : Yields run old a) (hnext : Fails (next a) e) :
    Fails (run >>= next) e := by
  intro log
  change (run log >>= fun p => next p.1 p.2) = _
  rw [hrun log]
  exact hnext (log ++ old)

theorem Yields.unique (hrun : Yields run new a) (hrun' : Yields run new' a') : a = a' := by
  have heq := (hrun []).symm.trans (hrun' [])
  exact congrArg Prod.fst (Except.ok.inj heq)

theorem Yields.unique_log (hrun : Yields run new a) (hrun' : Yields run new' a') : new = new' := by
  have heq := (hrun []).symm.trans (hrun' [])
  exact congrArg Prod.snd (Except.ok.inj heq)

theorem Yields.not_fails (hrun : Yields run new a) : ¬ Fails run e := by
  intro hfails
  cases (hrun []).symm.trans (hfails [])

theorem Returns.pure (a : α) : Returns (pure a : Logged ρ ε α) P a :=
  ⟨[], Yields.pure a, fun _ hr => absurd hr List.not_mem_nil⟩

theorem Returns.bind (hrun : Returns run P a) (hnext : Returns (next a) P b) :
    Returns (run >>= next) P b := by
  obtain ⟨old, hold, hP⟩ := hrun
  obtain ⟨new, hnew, hP'⟩ := hnext
  refine ⟨old ++ new, hold.bind hnew, fun r hr => ?_⟩
  rcases List.mem_append.mp hr with h | h
  · exact hP r h
  · exact hP' r h

theorem Returns.mono (hrun : Returns run P a) (hPQ : ∀ r, P r → Q r) : Returns run Q a := by
  obtain ⟨new, hnew, hP⟩ := hrun
  exact ⟨new, hnew, fun r hr => hPQ r (hP r hr)⟩

theorem Returns.bind_fails (hrun : Returns run P a) (hnext : Fails (next a) e) :
    Fails (run >>= next) e := by
  obtain ⟨new, hnew, -⟩ := hrun
  exact hnew.bind_fails hnext

theorem Returns.unique (hrun : Returns run P a) (hrun' : Returns run Q a') : a = a' := by
  obtain ⟨new, hnew, -⟩ := hrun
  obtain ⟨new', hnew', -⟩ := hrun'
  exact hnew.unique hnew'

theorem Returns.not_fails (hrun : Returns run P a) : ¬ Fails run e := by
  obtain ⟨new, hnew, -⟩ := hrun
  exact hnew.not_fails

end Logged

end CodeSlices
