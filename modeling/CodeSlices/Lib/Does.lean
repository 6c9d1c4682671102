import Mathlib.Logic.Basic

/-!
# Runs over a state

Runs that change a state and may not end, and what they do from each state with a property.
-/

namespace CodeSlices

variable {σ α β ι : Type} {P P' Q Q' R : σ → Prop} {x : StateT σ Option α}
  {next : α → StateT σ Option β} {a : α} {b : β}

/-- From every state with the property `P` the run ends with `a`, in a state with `Q`. -/
def Does (P : σ → Prop) (x : StateT σ Option α) (a : α) (Q : σ → Prop) : Prop :=
  ∀ s, P s → ∃ s', x s = some (a, s') ∧ Q s'

/-- From every state with `P` the run ends, with a value and a state that fit. -/
def Gives (P : σ → Prop) (x : StateT σ Option α) (S : α → σ → Prop) : Prop :=
  ∀ s, P s → ∃ a s', x s = some (a, s') ∧ S a s'

/-- From every state with `P` the run has no result. -/
def Stuck (P : σ → Prop) (x : StateT σ Option α) : Prop :=
  ∀ s, P s → x s = none

/-- The run ends, whatever it gives. -/
def Ends (x : StateT σ Option α) : Prop :=
  ∀ s, ∃ a s', x s = some (a, s')

namespace Does

theorem pure (a : α) : Does P (pure a : StateT σ Option α) a P := fun s hs => ⟨s, rfl, hs⟩

theorem bind (hx : Does P x a Q) (hnext : Does Q (next a) b R) : Does P (x >>= next) b R := by
  intro s hs
  obtain ⟨s', hrun, hs'⟩ := hx s hs
  obtain ⟨s'', hrun', hs''⟩ := hnext s' hs'
  refine ⟨s'', ?_, hs''⟩
  change (x s >>= fun p => next p.1 p.2) = _
  rw [hrun]
  exact hrun'

theorem pre (hx : Does P x a Q) (h : ∀ s, P' s → P s) : Does P' x a Q :=
  fun s hs => hx s (h s hs)

theorem post (hx : Does P x a Q) (h : ∀ s, Q s → Q' s) : Does P x a Q' := by
  intro s hs
  obtain ⟨s', hrun, hs'⟩ := hx s hs
  exact ⟨s', hrun, h s' hs'⟩

theorem modify {f : σ → σ} (h : ∀ s, P s → Q (f s)) :
    Does P (modify f : StateT σ Option Unit) () Q := fun s hs => ⟨f s, rfl, h s hs⟩

theorem modifyGet {f : σ → α × σ} (h : ∀ s, P s → (f s).1 = a ∧ Q (f s).2) :
    Does P (modifyGet f : StateT σ Option α) a Q := by
  intro s hs
  obtain ⟨ha, hQ⟩ := h s hs
  exact ⟨(f s).2, congrArg (fun a => some (a, (f s).2)) ha, hQ⟩

theorem get_bind {next : σ → StateT σ Option β} (h : ∀ s, P s → Does P (next s) b Q) :
    Does P (MonadState.get >>= next) b Q := fun s hs => h s hs s hs

/-- What is read is the state at this moment. -/
theorem read {next : σ → StateT σ Option β} (h : ∀ s, P s → Does (fun s' => s' = s) (next s) b Q) :
    Does P (MonadState.get >>= next) b Q := fun s hs => h s hs s rfl

theorem exists_index {P : ι → σ → Prop} (h : ∀ i, Does (P i) x a Q) :
    Does (fun s => ∃ i, P i s) x a Q := by
  rintro s ⟨i, hs⟩
  exact h i s hs

theorem run_eq (hx : Does P x a Q) {s : σ} (hs : P s) : (x s).map Prod.fst = some a := by
  obtain ⟨s', hrun, -⟩ := hx s hs
  rw [hrun]
  rfl

end Does

namespace Gives

variable {S : α → σ → Prop} {T : β → σ → Prop}

theorem of_does (hx : Does P x a Q) (h : ∀ s, Q s → S a s) : Gives P x S := by
  intro s hs
  obtain ⟨s', hrun, hs'⟩ := hx s hs
  exact ⟨a, s', hrun, h s' hs'⟩

theorem bind (hx : Gives P x S) (hnext : ∀ a, Gives (S a) (next a) T) :
    Gives P (x >>= next) T := by
  intro s hs
  obtain ⟨a, s', hrun, hs'⟩ := hx s hs
  obtain ⟨b, s'', hrun', hs''⟩ := hnext a s' hs'
  refine ⟨b, s'', ?_, hs''⟩
  change (x s >>= fun p => next p.1 p.2) = _
  rw [hrun]
  exact hrun'

theorem bind_does (hx : Does P x a Q) (hnext : Gives Q (next a) T) : Gives P (x >>= next) T := by
  intro s hs
  obtain ⟨s', hrun, hs'⟩ := hx s hs
  obtain ⟨b, s'', hrun', hs''⟩ := hnext s' hs'
  refine ⟨b, s'', ?_, hs''⟩
  change (x s >>= fun p => next p.1 p.2) = _
  rw [hrun]
  exact hrun'

theorem modifyGet {f : σ → α × σ} (h : ∀ s, P s → S (f s).1 (f s).2) :
    Gives P (modifyGet f : StateT σ Option α) S := fun s hs => ⟨(f s).1, (f s).2, rfl, h s hs⟩

theorem pure (h : ∀ s, P s → S a s) : Gives P (pure a : StateT σ Option α) S :=
  fun s hs => ⟨a, s, rfl, h s hs⟩

theorem modify {f : σ → σ} {S : Unit → σ → Prop} (h : ∀ s, P s → S () (f s)) :
    Gives P (modify f : StateT σ Option Unit) S := fun s hs => ⟨(), f s, rfl, h s hs⟩

/-- The states it starts from may be taken one by one. -/
theorem of_eq (h : ∀ s, P s → Gives (fun s' => s' = s) x S) : Gives P x S :=
  fun s hs => h s hs s rfl

theorem of_ends (hx : Ends x) : Gives P x (fun _ _ => True) := by
  intro s _
  obtain ⟨a, s', hrun⟩ := hx s
  exact ⟨a, s', hrun, trivial⟩

theorem get_bind {next : σ → StateT σ Option β} (h : ∀ s, P s → Gives P (next s) T) :
    Gives P (MonadState.get >>= next) T := fun s hs => h s hs s hs

theorem does {x : StateT σ Option Unit} (hx : Gives P x fun _ => Q) : Does P x () Q := by
  intro s hs
  obtain ⟨⟨⟩, s', hrun, hs'⟩ := hx s hs
  exact ⟨s', hrun, hs'⟩

theorem post {S' : α → σ → Prop} (hx : Gives P x S) (h : ∀ a s, S a s → S' a s) :
    Gives P x S' := by
  intro s hs
  obtain ⟨a, s', hrun, hs'⟩ := hx s hs
  exact ⟨a, s', hrun, h a s' hs'⟩

end Gives

theorem Stuck.bind_does (hx : Does P x a Q) (hnext : Stuck Q (next a)) :
    Stuck P (x >>= next) := by
  intro s hs
  obtain ⟨s', hrun, hs'⟩ := hx s hs
  change (x s >>= fun p => next p.1 p.2) = _
  rw [hrun]
  exact hnext s' hs'

theorem Stuck.get_bind {next : σ → StateT σ Option β} (h : ∀ s, P s → Stuck P (next s)) :
    Stuck P (MonadState.get >>= next) := fun s hs => h s hs s hs

namespace Ends

theorem pure (a : α) : Ends (pure a : StateT σ Option α) := fun s => ⟨a, s, rfl⟩

theorem bind (hx : Ends x) (hnext : ∀ a, Ends (next a)) : Ends (x >>= next) := by
  intro s
  obtain ⟨a, s', hrun⟩ := hx s
  obtain ⟨b, s'', hrun'⟩ := hnext a s'
  refine ⟨b, s'', ?_⟩
  change (x s >>= fun p => next p.1 p.2) = _
  rw [hrun]
  exact hrun'

theorem modify (f : σ → σ) : Ends (modify f : StateT σ Option Unit) := fun s => ⟨(), f s, rfl⟩

theorem modifyGet (f : σ → α × σ) : Ends (modifyGet f : StateT σ Option α) :=
  fun s => ⟨(f s).1, (f s).2, rfl⟩

end Ends

end CodeSlices
