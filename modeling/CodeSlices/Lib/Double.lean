import Mathlib.Algebra.Order.Floor.Ring
import Mathlib.Data.Int.Log
import Mathlib.Data.Rat.Floor
import Mathlib.Tactic.FieldSimp
import Mathlib.Tactic.Linarith

/-!
# Division in double precision

A double is a rational with 53 significant bits; exponents have no bounds here. Division rounds the
exact quotient to the nearest double. On integers that are doubles themselves the rounding is too
small to carry a quotient to the next integer, so its floor and its ceiling are exact.
-/

namespace CodeSlices.Double

/-- The nearest integer, and the even one of two. -/
def roundEven (q : ℚ) : ℤ :=
  let n := ⌊q⌋
  if q - n < 1 / 2 then n else if 1 / 2 < q - n then n + 1 else if n % 2 = 0 then n else n + 1

/-- The nearest double. -/
def round (q : ℚ) : ℚ :=
  if q = 0 then 0 else roundEven (q / 2 ^ (Int.log 2 |q| - 52)) * 2 ^ (Int.log 2 |q| - 52)

/-- `a / b` for two integers. -/
def divide (a b : ℤ) : ℚ := round (round a / round b)

theorem roundEven_intCast (n : ℤ) : roundEven n = n := by
  rw [roundEven, Int.floor_intCast, sub_self]
  exact if_pos (by norm_num)

theorem abs_roundEven_sub_le (q : ℚ) : |roundEven q - q| ≤ 1 / 2 := by
  have hle := Int.floor_le q
  have hlt := Int.lt_floor_add_one q
  unfold roundEven
  dsimp only
  split_ifs <;> push_cast <;> rw [abs_le] <;> constructor <;> linarith

theorem abs_round_sub_le (q : ℚ) : |round q - q| ≤ |q| / 2 ^ 53 := by
  by_cases hq : q = 0
  · simp [round, hq]
  have hpos : 0 < |q| := abs_pos.mpr hq
  have hlog : (2 : ℚ) ^ Int.log 2 |q| ≤ |q| := by
    exact_mod_cast Int.zpow_log_le_self (by norm_num : 1 < 2) hpos
  set e := Int.log 2 |q| - 52 with he
  have hscale : (0 : ℚ) < 2 ^ e := zpow_pos (by norm_num) e
  have hround : round q - q = (roundEven (q / 2 ^ e) - q / 2 ^ e) * 2 ^ e := by
    rw [round, if_neg hq, ← he, sub_mul, div_mul_cancel₀ q hscale.ne']
  calc
    |round q - q| = |(roundEven (q / 2 ^ e) : ℚ) - q / 2 ^ e| * 2 ^ e := by
      rw [hround, abs_mul, abs_of_pos hscale]
    _ ≤ 1 / 2 * 2 ^ e := by
      gcongr
      exact abs_roundEven_sub_le _
    _ = 2 ^ Int.log 2 |q| / 2 ^ 53 := by
      rw [he, zpow_sub₀ (by norm_num : (2 : ℚ) ≠ 0)]
      norm_num
      ring
    _ ≤ |q| / 2 ^ 53 := by gcongr

theorem round_intCast {n : ℤ} (hn : |n| < 2 ^ 53) : round n = n := by
  by_cases hzero : n = 0
  · simp [round, hzero]
  have hpos : (0 : ℚ) < |(n : ℚ)| := abs_pos.mpr (Int.cast_ne_zero.mpr hzero)
  have hlog : Int.log 2 |(n : ℚ)| < 53 := by
    rw [← Int.lt_zpow_iff_log_lt (by norm_num) hpos]
    exact_mod_cast hn
  obtain ⟨k, hk⟩ := Int.eq_ofNat_of_zero_le (by omega : 0 ≤ 52 - Int.log 2 |(n : ℚ)|)
  have hexp : Int.log 2 |(n : ℚ)| - 52 = -(k : ℤ) := by omega
  have hscaled : (n : ℚ) / 2 ^ (-(k : ℤ)) = ((n * 2 ^ k : ℤ) : ℚ) := by
    rw [zpow_neg, zpow_natCast, div_inv_eq_mul]
    push_cast
    rfl
  rw [round, if_neg (Int.cast_ne_zero.mpr hzero), hexp, hscaled, roundEven_intCast, ← hscaled,
    div_mul_cancel₀ _ (zpow_pos (by norm_num) (-(k : ℤ))).ne']

section Divide

variable {a b : ℤ}

theorem abs_divide_sub_lt (ha : |a| < 2 ^ 53) (hb : 0 < b) (hb' : b < 2 ^ 53) :
    |divide a b - a / b| < 1 / b := by
  have hbpos : (0 : ℚ) < b := Int.cast_pos.mpr hb
  have hdivide : divide a b = round (a / b) := by
    rw [divide, round_intCast ha, round_intCast (by rwa [abs_of_pos hb])]
  have ha' : |(a : ℚ)| < 2 ^ 53 := by exact_mod_cast ha
  calc
    |divide a b - a / b| ≤ |(a : ℚ) / b| / 2 ^ 53 := hdivide ▸ abs_round_sub_le _
    _ = |(a : ℚ)| / 2 ^ 53 / b := by rw [abs_div, abs_of_pos hbpos, div_right_comm]
    _ < 1 / b := by
      gcongr
      rw [div_lt_one (by norm_num)]
      exact ha'

/-- The quotient is an integer, or one `b`-th at least away from every integer. -/
theorem divide_eq_or_between (ha : |a| < 2 ^ 53) (hb : 0 < b) (hb' : b < 2 ^ 53) :
    (a % b = 0 ∧ divide a b = (a / b : ℤ)) ∨
      a % b ≠ 0 ∧ (a / b : ℤ) < divide a b ∧ divide a b < (a / b : ℤ) + 1 := by
  have hbpos : (0 : ℚ) < b := Int.cast_pos.mpr hb
  have hdecomp : (a : ℚ) = b * (a / b : ℤ) + (a % b : ℤ) := by
    exact_mod_cast (Int.mul_ediv_add_emod a b).symm
  have hquot : (a : ℚ) / b = (a / b : ℤ) + (a % b : ℤ) / b := by
    rw [hdecomp, add_div, mul_div_cancel_left₀ _ hbpos.ne']
  by_cases hrem : a % b = 0
  · refine Or.inl ⟨hrem, ?_⟩
    rw [divide, round_intCast ha, round_intCast (by rwa [abs_of_pos hb]), hquot, hrem]
    have hle : |a / b| ≤ |a| := Int.abs_ediv_le_abs a b
    rw [Int.cast_zero, zero_div, add_zero, round_intCast (hle.trans_lt ha)]
  · have hnonneg := Int.emod_nonneg a hb.ne'
    have hone : (1 : ℚ) / b ≤ (a % b : ℤ) / b := by
      gcongr
      exact_mod_cast (by omega : 1 ≤ a % b)
    have hlast : ((a % b : ℤ) : ℚ) / b + 1 / b ≤ 1 := by
      rw [← add_div, div_le_one hbpos]
      exact_mod_cast Int.emod_lt_of_pos a hb
    obtain ⟨hlo, hhi⟩ := abs_lt.mp (abs_divide_sub_lt ha hb hb')
    rw [hquot] at hlo hhi
    exact Or.inr ⟨hrem, by linarith, by linarith⟩

theorem floor_divide (ha : |a| < 2 ^ 53) (hb : 0 < b) (hb' : b < 2 ^ 53) :
    ⌊divide a b⌋ = a / b := by
  rcases divide_eq_or_between ha hb hb' with ⟨_, heq⟩ | ⟨_, hlo, hhi⟩
  · rw [heq, Int.floor_intCast]
  · exact Int.floor_eq_iff.mpr ⟨hlo.le, hhi⟩

theorem ceil_divide (ha : |a| < 2 ^ 53) (hb : 0 < b) (hb' : b < 2 ^ 53) :
    ⌈divide a b⌉ = a / b + if a % b = 0 then 0 else 1 := by
  rcases divide_eq_or_between ha hb hb' with ⟨hrem, heq⟩ | ⟨hrem, hlo, hhi⟩
  · rw [heq, Int.ceil_intCast, if_pos hrem, add_zero]
  · rw [if_neg hrem, Int.ceil_eq_iff]
    push_cast
    exact ⟨by linarith, hhi.le⟩

end Divide

end CodeSlices.Double
