import Mathlib.Data.List.Infix

/-!
# Searching a word in a text

Where a word occurs in a text, and how a search that compares letter by letter finds out.
-/

namespace CodeSlices.Search

variable {α : Type*} {word text : List α} {p q k : Nat}

def OccursAt (word text : List α) (p : Nat) : Prop :=
  word <+: text.drop p

/-- The first `k` letters of the word stand in the text from `p` on. -/
def AgreesAt (word text : List α) (p k : Nat) : Prop :=
  ∀ j < k, text[p + j]? = word[j]?

/-- The word occurs nowhere before `p`. -/
def NoneBefore (word text : List α) (p : Nat) : Prop :=
  ∀ q < p, ¬ OccursAt word text q

theorem AgreesAt.zero : AgreesAt word text p 0 := fun j hj => absurd hj (Nat.not_lt_zero j)

theorem AgreesAt.succ (hagrees : AgreesAt word text p k) (hnext : text[p + k]? = word[k]?) :
    AgreesAt word text p (k + 1) := by
  intro j hj
  rcases Nat.lt_succ_iff_lt_or_eq.mp hj with hlt | rfl
  · exact hagrees j hlt
  · exact hnext

theorem occursAt_iff_agreesAt : OccursAt word text p ↔ AgreesAt word text p word.length := by
  unfold OccursAt AgreesAt
  rw [List.prefix_iff_getElem?]
  refine forall₂_congr fun j hj => ?_
  rw [List.getElem?_drop, List.getElem?_eq_getElem hj]

theorem OccursAt.add_le (hoccurs : OccursAt word text p) (hword : word ≠ []) :
    p + word.length ≤ text.length := by
  have hle := hoccurs.length_le
  have hpos := List.length_pos_of_ne_nil hword
  rw [List.length_drop] at hle
  omega

theorem NoneBefore.zero : NoneBefore word text 0 := fun q hq => absurd hq (Nat.not_lt_zero q)

theorem NoneBefore.succ (hnone : NoneBefore word text p) (hnot : ¬ OccursAt word text p) :
    NoneBefore word text (p + 1) := by
  intro q hq
  rcases Nat.lt_succ_iff_lt_or_eq.mp hq with hlt | rfl
  · exact hnone q hlt
  · exact hnot

/-- Past the last start that leaves room for the word it occurs no more. -/
theorem NoneBefore.not_occursAt (hnone : NoneBefore word text p) (hword : word ≠ [])
    (hroom : text.length < p + word.length) : ¬ OccursAt word text q := by
  intro hoccurs
  have hle := hoccurs.add_le hword
  exact hnone q (by omega) hoccurs

/-! ### The answer of a search -/

/-- The first place where the word occurs, or -1 where it occurs nowhere. -/
def IsFirst (word text : List α) (r : ℤ) : Prop :=
  (r = -1 ∧ ∀ q, ¬ OccursAt word text q) ∨
    ∃ p : ℕ, r = p ∧ OccursAt word text p ∧ NoneBefore word text p

theorem IsFirst.unique {r s : ℤ} (hr : IsFirst word text r) (hs : IsFirst word text s) :
    r = s := by
  rcases hr with ⟨rfl, hnone⟩ | ⟨p, rfl, hp, hbefore⟩ <;>
    rcases hs with ⟨rfl, hnone'⟩ | ⟨q, rfl, hq, hbefore'⟩
  · rfl
  · exact absurd hq (hnone q)
  · exact absurd hp (hnone' p)
  · rcases Nat.lt_trichotomy p q with hlt | rfl | hlt
    · exact absurd hp (hbefore' p hlt)
    · rfl
    · exact absurd hq (hbefore q hlt)

end CodeSlices.Search
