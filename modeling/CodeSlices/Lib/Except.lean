import Mathlib.Data.Option.Basic

/-!
# Results that may be errors

How a step is taken out of a chain of steps in `Except`.
-/

namespace CodeSlices

universe u v

variable {ε : Type u} {α β : Type v}

theorem ok_bind (a : α) (next : α → Except ε β) : Except.ok a >>= next = next a := rfl

theorem error_bind (e : ε) (next : α → Except ε β) : Except.error e >>= next = .error e := rfl

theorem exists_of_bind_eq_ok {x : Except ε α} {next : α → Except ε β} {b : β}
    (h : x >>= next = .ok b) : ∃ a, x = .ok a ∧ next a = .ok b := by
  cases x with
  | error e => cases h
  | ok a => exact ⟨a, rfl, h⟩

theorem exists_of_toOption_map_eq {x : Except ε α} {g : α → β} {b : β}
    (h : x.toOption.map g = some b) : ∃ a, x = .ok a ∧ g a = b := by
  cases x with
  | error e => cases h
  | ok a => exact ⟨a, rfl, Option.some.inj h⟩

theorem mapM_eq_ok {f : α → Except ε β} {g : α → β} {xs : List α}
    (hf : ∀ x ∈ xs, f x = .ok (g x)) : xs.mapM f = .ok (xs.map g) := by
  induction xs with
  | nil => rfl
  | cons x xs ih =>
      obtain ⟨hx, hxs⟩ := List.forall_mem_cons.mp hf
      rw [List.mapM_cons, hx, ok_bind, ih hxs]
      rfl

end CodeSlices
