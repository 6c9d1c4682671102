import CodeSlices.Lib.Double
import CodeSlices.Lib.Except

/-!
# Gradients

`nround` and `gen-gradient` of `lisp/rainbow-slide.rkt` on exact rationals. A loop gets the number
of rounds it may take, and is still running when they are used up.
-/

namespace CodeSlices.Rainbow

inductive Fault
  | divideByZero
  | running
  deriving DecidableEq

structure Color where
  r : ℤ
  g : ℤ
  b : ℤ
  deriving DecidableEq

/-- The loop of `nround`. -/
def nroundLoop (n : ℚ) : Nat → ℚ → Except Fault ℤ
  | 0, _ => .error .running
  | fuel + 1, y => if y ≤ n then .ok (Double.roundEven y) else nroundLoop n fuel (y - n)

def nround (n : ℚ) : Nat → ℚ → Except Fault ℤ
  | 0, _ => .error .running
  | fuel + 1, x => if 0 < x then nroundLoop n (fuel + 1) x else nround n fuel |x|

def genGradient (fuel num : Nat) (c1 c2 : Color) : Except Fault (List Color) :=
  if num = 0 then .error .divideByZero
  else
    let rs : ℚ := (c2.r - c1.r) / num
    let gs : ℚ := (c2.g - c1.g) / num
    let bs : ℚ := (c2.b - c1.b) / num
    (List.range num).mapM fun (i : Nat) => do
      let r ← nround 255 fuel (c1.r + i * rs)
      let g ← nround 255 fuel (c1.g + i * gs)
      let b ← nround 255 fuel (c1.b + i * bs)
      .ok ⟨r, g, b⟩

def Channel (a : ℤ) : Prop := 0 ≤ a ∧ a ≤ 255

instance (a : ℤ) : Decidable (Channel a) := inferInstanceAs (Decidable (_ ∧ _))

def Color.InRange (c : Color) : Prop := Channel c.r ∧ Channel c.g ∧ Channel c.b

instance (c : Color) : Decidable c.InRange := inferInstanceAs (Decidable (_ ∧ _))

def interpolate (num i : Nat) (a b : ℤ) : ℤ := Double.roundEven (a + i * (b - a) / num)

def step (num : Nat) (c1 c2 : Color) (i : Nat) : Color where
  r := interpolate num i c1.r c2.r
  g := interpolate num i c1.g c2.g
  b := interpolate num i c1.b c2.b

/-- The call returns `num` colours with channels in range, which interpolate. -/
def IsGradient (num : Nat) (c1 c2 : Color) : Prop :=
  ∃ fuel colors, genGradient fuel num c1 c2 = .ok colors ∧ colors.length = num ∧
    ∀ i < num, colors[i]? = some (step num c1 c2 i) ∧ (step num c1 c2 i).InRange

/-! ### Rounding -/

/-- Of zero the absolute value is taken for ever. -/
theorem nround_zero (n : ℚ) (fuel : Nat) : nround n fuel 0 = .error .running := by
  induction fuel with
  | zero => rfl
  | succ fuel ih => rw [nround, if_neg (lt_irrefl 0), abs_zero, ih]

theorem nround_of_between {n x : ℚ} (hpos : 0 < x) (hle : x ≤ n) (fuel : Nat) :
    nround n (fuel + 1) x = .ok (Double.roundEven x) := by
  rw [nround, if_pos hpos, nroundLoop, if_pos hle]

theorem channel_roundEven {x : ℚ} (hpos : 0 < x) (hle : x ≤ 255) :
    Channel (Double.roundEven x) := by
  obtain ⟨hlo, hhi⟩ := abs_le.mp (Double.abs_roundEven_sub_le x)
  have hlow : ((-1 : ℤ) : ℚ) < Double.roundEven x := by push_cast; linarith
  have hhigh : (Double.roundEven x : ℚ) < (256 : ℤ) := by push_cast; linarith
  exact ⟨Int.cast_lt.mp hlow, Int.lt_add_one_iff.mp (Int.cast_lt.mp hhigh)⟩

/-! ### The values that are rounded -/

variable {num i : Nat} {a b : ℤ} {c1 c2 : Color}

theorem value_between (hi : i < num) (ha : Channel a) (hb : Channel b) (hne : a ≠ 0) :
    (0 : ℚ) < a + i * ((b - a) / num) ∧ a + i * ((b - a) / num) ≤ (255 : ℚ) := by
  have hnum : (0 : ℚ) < num := Nat.cast_pos.mpr (Nat.zero_lt_of_lt hi)
  have hleft : (0 : ℚ) < num - i := sub_pos.mpr (Nat.cast_lt.mpr hi)
  have hi0 : (0 : ℚ) ≤ i := Nat.cast_nonneg i
  have hone : (1 : ℚ) ≤ a := by exact_mod_cast (by have := ha.1; omega : 1 ≤ a)
  have ha255 : (a : ℚ) ≤ 255 := by exact_mod_cast ha.2
  have hb0 : (0 : ℚ) ≤ b := by exact_mod_cast hb.1
  have hb255 : (b : ℚ) ≤ 255 := by exact_mod_cast hb.2
  have hweights : (a : ℚ) + i * ((b - a) / num) = (a * (num - i) + i * b) / num := by
    field_simp
    ring
  rw [hweights]
  constructor
  · positivity
  · rw [div_le_iff₀ hnum]
    nlinarith

theorem nround_value (hi : i < num) (ha : Channel a) (hb : Channel b) (hne : a ≠ 0) :
    nround 255 1 (a + i * ((b - a) / num)) = .ok (interpolate num i a b) := by
  obtain ⟨hpos, hle⟩ := value_between hi ha hb hne
  rw [nround_of_between hpos hle, interpolate, mul_div_assoc]

theorem channel_interpolate (hi : i < num) (ha : Channel a) (hb : Channel b) (hne : a ≠ 0) :
    Channel (interpolate num i a b) := by
  obtain ⟨hpos, hle⟩ := value_between hi ha hb hne
  rw [interpolate, mul_div_assoc]
  exact channel_roundEven hpos hle

theorem isGradient_of_nonzero (hnum : 0 < num) (h1 : c1.InRange) (h2 : c2.InRange)
    (hr : c1.r ≠ 0) (hg : c1.g ≠ 0) (hb : c1.b ≠ 0) : IsGradient num c1 c2 := by
  obtain ⟨hr1, hg1, hb1⟩ := h1
  obtain ⟨hr2, hg2, hb2⟩ := h2
  refine ⟨1, (List.range num).map (step num c1 c2), ?_, ?_, fun i hi => ⟨?_, ?_⟩⟩
  · rw [genGradient, if_neg hnum.ne']
    refine mapM_eq_ok fun i hrange => ?_
    have hi := List.mem_range.mp hrange
    rw [nround_value hi hr1 hr2 hr, nround_value hi hg1 hg2 hg, nround_value hi hb1 hb2 hb]
    rfl
  · rw [List.length_map, List.length_range]
  · rw [List.getElem?_map, List.getElem?_range hi, Option.map_some]
  · exact ⟨channel_interpolate hi hr1 hr2 hr, channel_interpolate hi hg1 hg2 hg,
      channel_interpolate hi hb1 hb2 hb⟩

/-- The first colour is rounded channel by channel before anything else. -/
theorem nonzero_of_genGradient {fuel : Nat} {colors : List Color} (hnum : 0 < num)
    (hok : genGradient fuel num c1 c2 = .ok colors) : c1.r ≠ 0 ∧ c1.g ≠ 0 ∧ c1.b ≠ 0 := by
  obtain ⟨k, rfl⟩ := Nat.exists_eq_add_of_lt hnum
  have hfirst : ∀ (a : ℤ) (s : ℚ) (y : ℤ), nround 255 fuel (a + (0 : Nat) * s) = .ok y →
      a ≠ 0 := by
    rintro a s y hround rfl
    rw [Nat.cast_zero, zero_mul, Int.cast_zero, add_zero, nround_zero] at hround
    cases hround
  rw [genGradient, if_neg hnum.ne', Nat.zero_add, List.range_succ_eq_map] at hok
  dsimp only at hok
  rw [List.mapM_cons] at hok
  obtain ⟨color, hcolor, -⟩ := exists_of_bind_eq_ok hok
  obtain ⟨r, hr, hcolor⟩ := exists_of_bind_eq_ok hcolor
  obtain ⟨g, hg, hcolor⟩ := exists_of_bind_eq_ok hcolor
  obtain ⟨b, hb, -⟩ := exists_of_bind_eq_ok hcolor
  exact ⟨hfirst _ _ _ hr, hfirst _ _ _ hg, hfirst _ _ _ hb⟩

/-- The gradient is the interpolation exactly when no channel of the first colour is zero. -/
theorem isGradient_iff (hnum : 0 < num) (h1 : c1.InRange) (h2 : c2.InRange) :
    IsGradient num c1 c2 ↔ c1.r ≠ 0 ∧ c1.g ≠ 0 ∧ c1.b ≠ 0 := by
  constructor
  · rintro ⟨fuel, colors, hok, -⟩
    exact nonzero_of_genGradient hnum hok
  · rintro ⟨hr, hg, hb⟩
    exact isGradient_of_nonzero hnum h1 h2 hr hg hb

theorem isGradient_demo : IsGradient 255 ⟨1, 15, 207⟩ ⟨255, 0, 25⟩ :=
  (isGradient_iff (by decide) (by decide) (by decide)).mpr (by decide)

theorem genGradient_of_zero (hnum : 0 < num) (hr : c1.r = 0) (fuel : Nat) :
    genGradient fuel num c1 c2 = .error .running := by
  obtain ⟨k, rfl⟩ := Nat.exists_eq_add_of_lt hnum
  have hfirst : ∀ s : ℚ, nround 255 fuel (c1.r + (0 : Nat) * s) = .error .running := by
    intro s
    rw [hr, Nat.cast_zero, zero_mul, Int.cast_zero, add_zero, nround_zero]
  rw [genGradient, if_neg hnum.ne', Nat.zero_add, List.range_succ_eq_map]
  dsimp only
  rw [List.mapM_cons, hfirst]
  rfl

/-- A gradient that starts at black is never returned. -/
theorem black_running :
    (∀ fuel, genGradient fuel 255 ⟨0, 0, 0⟩ ⟨255, 255, 255⟩ = .error .running) ∧
    ¬ IsGradient 255 ⟨0, 0, 0⟩ ⟨255, 255, 255⟩ := by
  have hrunning : ∀ fuel, genGradient fuel 255 ⟨0, 0, 0⟩ ⟨255, 255, 255⟩ = .error .running :=
    genGradient_of_zero (by decide) rfl
  refine ⟨hrunning, ?_⟩
  rintro ⟨fuel, colors, hok, -⟩
  cases (hrunning fuel).symm.trans hok

end CodeSlices.Rainbow
