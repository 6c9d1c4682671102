import CodeSlices.Lib.Does
import Mathlib.Algebra.BigOperators.Group.List.Basic
import Mathlib.Algebra.Group.Defs

/-!
# Loops over lists

Runs that visit the items of a list one by one.
-/

namespace CodeSlices.Does

variable {σ ι : Type} {M : Type*} [AddMonoid M] {P : M → σ → Prop} {w : ι → M}

/-- A loop over a list, where each pass does its share of what is left to do. -/
theorem forM {f : ι → StateT σ Option PUnit} (h : ∀ i p, Does (P (w i + p)) (f i) ⟨⟩ (P p))
    (xs : List ι) (p : M) : Does (P ((xs.map w).sum + p)) (xs.forM f) ⟨⟩ (P p) := by
  induction xs with
  | nil =>
      rw [List.map_nil, List.sum_nil, zero_add]
      exact Does.pure _
  | cons i xs ih =>
      rw [List.map_cons, List.sum_cons, add_assoc]
      exact (h i _).bind ih

/-- A loop that counts its passes. -/
theorem foldlM {f : Nat → ι → StateT σ Option Nat}
    (h : ∀ count i p, Does (P (w i + p)) (f count i) (count + 1) (P p)) (xs : List ι) (count : Nat)
    (p : M) : Does (P ((xs.map w).sum + p)) (xs.foldlM f count) (count + xs.length) (P p) := by
  induction xs generalizing count with
  | nil =>
      rw [List.map_nil, List.sum_nil, zero_add]
      exact Does.pure _
  | cons i xs ih =>
      rw [List.map_cons, List.sum_cons, add_assoc, List.foldlM_cons, List.length_cons,
        Nat.add_comm xs.length, ← Nat.add_assoc]
      exact (h count i _).bind (ih (count + 1))

end CodeSlices.Does
