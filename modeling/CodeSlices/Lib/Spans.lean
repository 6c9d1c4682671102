import Mathlib.Data.List.Basic

/-!
# Consecutive spans

Lists of spans of numbers, from their first to their last, of which each begins right behind the one
before it.
-/

namespace CodeSlices.Spans

variable {α : Type*} {first last : α → Nat} {low high i : Nat} {a b : α} {spans : List α}

/-- The spans have the numbers from `low` on and below `high`. -/
def Consecutive (first last : α → Nat) : Nat → List α → Nat → Prop
  | low, [], high => low = high
  | low, a :: spans, high =>
      first a = low ∧ low ≤ last a ∧ Consecutive first last (last a + 1) spans high

theorem Consecutive.le (hspans : Consecutive first last low spans high) : low ≤ high := by
  induction spans generalizing low with
  | nil => exact Nat.le_of_eq hspans
  | cons a spans ih =>
      obtain ⟨-, hle, hrest⟩ := hspans
      have hhigh := ih hrest
      omega

theorem Consecutive.bounds (hspans : Consecutive first last low spans high) (ha : a ∈ spans) :
    low ≤ first a ∧ first a ≤ last a ∧ last a < high := by
  induction spans generalizing low with
  | nil => cases ha
  | cons b spans ih =>
      obtain ⟨hfirst, hle, hrest⟩ := hspans
      rcases List.mem_cons.mp ha with rfl | ha
      · have hhigh := hrest.le
        omega
      · have hbounds := ih hrest ha
        omega

theorem Consecutive.exists_mem (hspans : Consecutive first last low spans high) (hlow : low ≤ i)
    (hhigh : i < high) : ∃ a ∈ spans, first a ≤ i ∧ i ≤ last a := by
  induction spans generalizing low with
  | nil =>
      obtain rfl : low = high := hspans
      omega
  | cons a spans ih =>
      obtain ⟨hfirst, -, hrest⟩ := hspans
      by_cases hi : i ≤ last a
      · exact ⟨a, List.mem_cons_self, by omega, hi⟩
      · obtain ⟨b, hb, hspan⟩ := ih hrest (Nat.lt_of_not_le hi)
        exact ⟨b, List.mem_cons_of_mem a hb, hspan⟩

theorem Consecutive.eq_of_mem (hspans : Consecutive first last low spans high) (ha : a ∈ spans)
    (hb : b ∈ spans) (hfirst : first a ≤ i) (hlast : i ≤ last a) (hfirst' : first b ≤ i)
    (hlast' : i ≤ last b) : a = b := by
  induction spans generalizing low with
  | nil => cases ha
  | cons c spans ih =>
      obtain ⟨-, -, hrest⟩ := hspans
      rw [List.mem_cons] at ha hb
      rcases ha with rfl | ha <;> rcases hb with rfl | hb
      · rfl
      · have hbounds := hrest.bounds hb
        omega
      · have hbounds := hrest.bounds ha
        omega
      · exact ih hrest ha hb

theorem Consecutive.existsUnique (hspans : Consecutive first last low spans high) (hlow : low ≤ i)
    (hhigh : i < high) : ∃! a, a ∈ spans ∧ first a ≤ i ∧ i ≤ last a := by
  obtain ⟨a, ha, hfirst, hlast⟩ := hspans.exists_mem hlow hhigh
  refine ⟨a, ⟨ha, hfirst, hlast⟩, ?_⟩
  rintro b ⟨hb, hfirst', hlast'⟩
  exact hspans.eq_of_mem hb ha hfirst' hlast' hfirst hlast

theorem Consecutive.last_lt_first (hspans : Consecutive first last low spans high) (ha : a ∈ spans)
    (hb : b ∈ spans) (hlt : first a < first b) : last a < first b := by
  by_contra hle
  have hbounds := hspans.bounds hb
  obtain rfl := hspans.eq_of_mem ha hb (Nat.le_of_lt hlt) (Nat.le_of_not_lt hle) (Nat.le_refl _)
    hbounds.2.1
  exact Nat.lt_irrefl _ hlt

theorem Consecutive.pairwise (hspans : Consecutive first last low spans high) :
    spans.Pairwise fun a b => first a < first b := by
  induction spans generalizing low with
  | nil => exact List.Pairwise.nil
  | cons a spans ih =>
      obtain ⟨hfirst, hle, hrest⟩ := hspans
      refine List.Pairwise.cons (fun b hb => ?_) (ih hrest)
      have hbounds := hrest.bounds hb
      omega

/-- Behind a span the next one begins, or all of them end. -/
theorem Consecutive.next (hspans : Consecutive first last low spans high) (ha : a ∈ spans) :
    last a + 1 = high ∨ ∃ b ∈ spans, first b = last a + 1 := by
  induction spans generalizing low with
  | nil => cases ha
  | cons b spans ih =>
      obtain ⟨-, -, hrest⟩ := hspans
      rcases List.mem_cons.mp ha with rfl | ha
      · cases spans with
        | nil => exact Or.inl hrest
        | cons b spans => exact Or.inr ⟨b, List.mem_cons_of_mem a List.mem_cons_self, hrest.1⟩
      · refine (ih hrest ha).imp_right ?_
        rintro ⟨c, hc, hfirst⟩
        exact ⟨c, List.mem_cons_of_mem b hc, hfirst⟩

theorem Consecutive.map {β : Type*} {f : β → α} {spans : List β}
    (hspans : Consecutive (first ∘ f) (last ∘ f) low spans high) :
    Consecutive first last low (spans.map f) high := by
  induction spans generalizing low with
  | nil => exact hspans
  | cons b spans ih =>
      obtain ⟨hfirst, hle, hrest⟩ := hspans
      exact ⟨hfirst, hle, ih hrest⟩

end CodeSlices.Spans
