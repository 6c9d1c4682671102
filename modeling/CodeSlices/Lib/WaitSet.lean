import Mathlib.Data.Finset.Card

/-!
# The wait set of a condition variable

A condition variable is the set of the threads blocked on it. A signal takes one of them out, of
anybody's choice, and does nothing when there is none. What the users of one condition variable
argue about is how many waiters there are apart from one distinguished thread, so the rules below
count those.
-/

namespace CodeSlices.WaitSet

variable {τ : Type*} [DecidableEq τ]

/-- Wake the thread `woken`: some waiter if there is one, and nobody otherwise. -/
def signal (waiters : Finset τ) : Option τ → Option (Finset τ)
  | none => if waiters = ∅ then some ∅ else none
  | some t => if t ∈ waiters then some (waiters.erase t) else none

def others (waiters : Finset τ) (t : τ) : Nat := (waiters.erase t).card

variable {waiters waiters' : Finset τ} {woken : Option τ} {t u : τ}

theorem signal_cases (hsignal : signal waiters woken = some waiters') :
    (waiters = ∅ ∧ waiters' = ∅) ∨ ∃ u ∈ waiters, waiters' = waiters.erase u := by
  cases woken with
  | none =>
      by_cases hempty : waiters = ∅
      · rw [signal, if_pos hempty] at hsignal
        exact Or.inl ⟨hempty, (Option.some.inj hsignal).symm⟩
      · rw [signal, if_neg hempty] at hsignal
        cases hsignal
  | some u =>
      by_cases hmem : u ∈ waiters
      · rw [signal, if_pos hmem] at hsignal
        exact Or.inr ⟨u, hmem, (Option.some.inj hsignal).symm⟩
      · rw [signal, if_neg hmem] at hsignal
        cases hsignal

theorem signal_subset (hsignal : signal waiters woken = some waiters') : waiters' ⊆ waiters := by
  rcases signal_cases hsignal with ⟨_, rfl⟩ | ⟨u, _, rfl⟩
  · exact Finset.empty_subset _
  · exact Finset.erase_subset u waiters

@[simp]
theorem others_empty : others ∅ t = 0 := by
  simp [others]

@[simp]
theorem others_insert_self : others (insert t waiters) t = others waiters t := by
  rw [others, others, Finset.erase_insert_eq_erase]

theorem others_erase_self : others (waiters.erase t) t = others waiters t := by
  rw [others, others, Finset.erase_idem]

theorem others_mono (t : τ) (hsub : waiters' ⊆ waiters) : others waiters' t ≤ others waiters t :=
  Finset.card_le_card (Finset.erase_subset_erase t hsub)

theorem others_erase_of_ne (hmem : u ∈ waiters) (hne : u ≠ t) :
    others (waiters.erase u) t + 1 = others waiters t := by
  rw [others, others, Finset.erase_right_comm]
  exact Finset.card_erase_add_one (Finset.mem_erase.mpr ⟨hne, hmem⟩)

/-- A signal that does not wake `t` wakes somebody else, if anybody else is waiting. -/
theorem others_signal (t : τ) (hsignal : signal waiters woken = some waiters') :
    (t ∈ waiters ∧ t ∉ waiters' ∧ others waiters' t = others waiters t) ∨
      ((t ∈ waiters' ↔ t ∈ waiters) ∧ others waiters' t = others waiters t - 1 ∧
        (t ∈ waiters → 0 < others waiters t)) := by
  rcases signal_cases hsignal with ⟨rfl, rfl⟩ | ⟨u, hmem, rfl⟩
  · exact Or.inr ⟨Iff.rfl, by simp, by simp⟩
  · by_cases heq : u = t
    · subst heq
      exact Or.inl ⟨hmem, Finset.notMem_erase u waiters, others_erase_self⟩
    · have hothers := others_erase_of_ne hmem heq
      refine Or.inr ⟨?_, by omega, fun _ => by omega⟩
      rw [Finset.mem_erase]
      exact and_iff_right (Ne.symm heq)

end CodeSlices.WaitSet
