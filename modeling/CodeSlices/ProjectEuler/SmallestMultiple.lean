import Mathlib.Algebra.BigOperators.Group.List.Lemmas
import Mathlib.Algebra.BigOperators.Ring.List
import Mathlib.Algebra.Ring.Nat
import Mathlib.Data.List.Range

/-!
# A common multiple

`lisp/projecteuler.net/p5.rkt`, with any number in the place of 20. It starts from a common multiple
of all numbers up to this one and takes it down by divisions, but only ever by the number itself,
and what it ends with is a common multiple no more.
-/

namespace CodeSlices.ProjectEuler.SmallestMultiple

/-- `(range a b)` -/
def range (a b : Nat) : List Nat := List.range' a (b - a)

def isFactor (n : Nat) : List Nat → Bool
  | [] => false
  | x :: lst => if x % n = 0 then true else isFactor n lst

def singles (max : Nat) : List Nat :=
  (range 2 max).filter fun n => !isFactor n (range (n + 1) max)

def base (max : Nat) : Nat := (singles max).foldl (fun acc n => n * acc) 1

/-- The loop of `is-multiple?`, for the rounds that are left. -/
def isMultipleFrom (n : Nat) : Nat → Nat → Bool
  | 0, _ => true
  | left + 1, i => if n % i = 0 then isMultipleFrom n left (i + 1) else false

def isMultiple (n x : Nat) : Bool := isMultipleFrom n (x - 1) 2

/-- A line that is displayed. -/
inductive Line
  | find (divisor n : Nat)
  | last (n : Nat)
  deriving DecidableEq

/-- The last loop: the lines it displays and its result. -/
def search (x : Nat) : Nat → Nat → List Nat → Option (List Line × Nat)
  | 0, _, _ => none
  | _ + 1, n, [] => some ([], n)
  | fuel + 1, n, divisor :: lst =>
      if isMultiple n x then
        (search x fuel (n / divisor) (divisor :: lst)).map fun r => (.find divisor n :: r.1, r.2)
      else (search x fuel n lst).map fun r => (.last n :: r.1, r.2)

variable {n m x k fuel : Nat} {lst : List Nat}

theorem mem_range {a b : Nat} : n ∈ range a b ↔ a ≤ n ∧ n < b := by
  rw [range, List.mem_range'_1]
  omega

theorem isFactor_iff (n : Nat) (lst : List Nat) : isFactor n lst = true ↔ ∃ x ∈ lst, n ∣ x := by
  induction lst with
  | nil => simp [isFactor]
  | cons x lst ih =>
      rw [isFactor, List.exists_mem_cons_iff, Nat.dvd_iff_mod_eq_zero]
      by_cases hx : x % n = 0
      · rw [if_pos hx]
        exact iff_of_true rfl (.inl hx)
      · rw [if_neg hx, ih, or_iff_right hx]

/-- The numbers with no multiple behind them are those of the upper half. -/
theorem mem_singles_iff (x n : Nat) : n ∈ singles (x + 1) ↔ 2 ≤ n ∧ n ≤ x ∧ x < 2 * n := by
  rw [singles, List.mem_filter, mem_range, Bool.not_eq_true', ← Bool.not_eq_true, isFactor_iff]
  constructor
  · rintro ⟨⟨htwo, hle⟩, hnone⟩
    refine ⟨htwo, Nat.le_of_lt_succ hle, ?_⟩
    by_contra hdouble
    exact hnone ⟨2 * n, mem_range.mpr ⟨by omega, by omega⟩, Nat.dvd_mul_left n 2⟩
  · rintro ⟨htwo, hle, hdouble⟩
    refine ⟨⟨htwo, Nat.lt_succ_of_le hle⟩, ?_⟩
    rintro ⟨_, hm, c, rfl⟩
    obtain ⟨hlt, hup⟩ := mem_range.mp hm
    have hc : 2 ≤ c := by
      by_contra hc
      have hle := Nat.mul_le_mul_left n (show c ≤ 1 by omega)
      omega
    have htwice := Nat.mul_le_mul_left n hc
    omega

theorem base_eq (max : Nat) : base max = (singles max).prod := by
  have hfold : ∀ (lst : List Nat) (acc : Nat),
      lst.foldl (fun acc n => n * acc) acc = acc * lst.prod := by
    intro lst
    induction lst with
    | nil => exact fun acc => (Nat.mul_one acc).symm
    | cons n lst ih =>
        intro acc
        rw [List.foldl_cons, ih, List.prod_cons, Nat.mul_comm n acc, Nat.mul_assoc]
  rw [base, hfold, Nat.one_mul]

theorem isMultipleFrom_iff (n left i : Nat) :
    isMultipleFrom n left i = true ↔ ∀ j, i ≤ j → j < i + left → j ∣ n := by
  induction left generalizing i with
  | zero => exact iff_of_true rfl fun j hj hlt => absurd hlt (by omega)
  | succ left ih =>
      rw [isMultipleFrom]
      by_cases hi : n % i = 0
      · rw [if_pos hi, ih]
        constructor
        · intro h j hj hlt
          rcases Nat.eq_or_lt_of_le hj with rfl | hj
          · exact Nat.dvd_of_mod_eq_zero hi
          · exact h j hj (by omega)
        · exact fun h j hj hlt => h j (by omega) (by omega)
      · rw [if_neg hi]
        refine iff_of_false Bool.false_ne_true fun h => hi ?_
        exact Nat.mod_eq_zero_of_dvd (h i le_rfl (by omega))

/-- A multiple of all numbers from 1 to `x`. -/
def IsCommon (x n : Nat) : Prop := ∀ j, 1 ≤ j → j ≤ x → j ∣ n

theorem isMultiple_iff (n x : Nat) : isMultiple n x = true ↔ IsCommon x n := by
  rw [isMultiple, isMultipleFrom_iff]
  constructor
  · intro h j hj hle
    rcases Nat.eq_or_lt_of_le hj with rfl | hj
    · exact one_dvd n
    · exact h j hj (by omega)
  · exact fun h j hj hlt => h j (by omega) (by omega)

/-- Every number up to `x` has a multiple in the upper half, so that the product is common. -/
theorem isCommon_base (x : Nat) : IsCommon x (base (x + 1)) := by
  intro j hj hle
  rw [base_eq]
  have hquot : 1 ≤ x / j := (Nat.one_le_div_iff hj).mpr hle
  have hself : j ≤ j * (x / j) := Nat.le_mul_of_pos_right j hquot
  have hlow : x < j * (x / j) + j := Nat.lt_mul_div_succ x hj
  have hup : j * (x / j) ≤ x := Nat.mul_div_le x j
  rcases Nat.eq_or_lt_of_le hj with rfl | hj
  · exact one_dvd _
  · have hmem : j * (x / j) ∈ singles (x + 1) :=
      (mem_singles_iff x _).mpr ⟨by omega, hup, by omega⟩
    exact (Nat.dvd_mul_right j (x / j)).trans (List.dvd_prod hmem)

theorem base_pos (x : Nat) : 0 < base (x + 1) := by
  rw [base_eq]
  refine Nat.pos_of_ne_zero (List.prod_ne_zero fun hmem => ?_)
  obtain ⟨htwo, -⟩ := (mem_singles_iff x 0).mp hmem
  omega

/-- The divisor that comes first is `x` itself. -/
theorem reverse_singles (hx : 2 ≤ x) : ∃ lst, (singles (x + 1)).reverse = x :: lst := by
  have hsplit : range 2 (x + 1) = range 2 x ++ [x] := by
    rw [range, range, show x + 1 - 2 = x - 2 + 1 by omega, List.range'_concat]
    congr 2
    omega
  have hlast : isFactor x (range (x + 1) (x + 1)) = false := by
    rw [range, Nat.sub_self]
    rfl
  refine ⟨((range 2 x).filter fun n => !isFactor n (range (n + 1) (x + 1))).reverse, ?_⟩
  rw [singles, hsplit, List.filter_append, List.reverse_append, List.filter_cons_of_pos (by
    rw [hlast]
    rfl)]
  rfl

/-- A common multiple is divided until it is one no more. -/
theorem exists_divisions (hx : 2 ≤ x) (hn : 0 < n) :
    ∃ k, (∀ j < k, IsCommon x (n / x ^ j)) ∧ ¬ IsCommon x (n / x ^ k) ∧ x ^ k ∣ n := by
  induction n using Nat.strongRecOn with
  | ind n ih =>
      by_cases hcommon : IsCommon x n
      · obtain ⟨m, rfl⟩ := hcommon x (by omega) le_rfl
        have hm : 0 < m := Nat.pos_of_mul_pos_left hn
        have hlt : m < x * m := by
          have htwo := Nat.mul_le_mul_right m hx
          omega
        obtain ⟨k, hall, hstop, hdvd⟩ := ih m hlt hm
        have hdiv : ∀ j, x * m / x ^ (j + 1) = m / x ^ j := by
          intro j
          rw [Nat.pow_succ', ← Nat.div_div_eq_div_mul, Nat.mul_div_cancel_left m (by omega)]
        refine ⟨k + 1, ?_, ?_, ?_⟩
        · intro j hj
          cases j with
          | zero =>
              rw [Nat.pow_zero, Nat.div_one]
              exact hcommon
          | succ j =>
              rw [hdiv]
              exact hall j (Nat.lt_of_succ_lt_succ hj)
        · rw [hdiv]
          exact hstop
        · rw [Nat.pow_succ']
          exact Nat.mul_dvd_mul_left x hdvd
      · refine ⟨0, fun j hj => absurd hj (Nat.not_lt_zero j), ?_, one_dvd n⟩
        rwa [Nat.pow_zero, Nat.div_one]

/-- What is no common multiple is passed on unchanged, divisor by divisor. -/
theorem search_last (hstop : ¬ IsCommon x n) (lst : List Nat) (more : Nat) :
    search x (lst.length + 1 + more) n lst = some (List.replicate lst.length (.last n), n) := by
  induction lst with
  | nil =>
      rw [Nat.add_right_comm]
      rfl
  | cons divisor lst ih =>
      have hfuel : (divisor :: lst).length + 1 + more = lst.length + 1 + more + 1 := by
        rw [List.length_cons]
        omega
      rw [hfuel, search, if_neg (by rwa [isMultiple_iff]), ih]
      rfl

theorem search_divisions (k : Nat) (hall : ∀ j < k, IsCommon x (n / x ^ j))
    (hstop : ¬ IsCommon x (n / x ^ k)) (lst : List Nat) (more : Nat) :
    search x (k + ((x :: lst).length + 1 + more)) n (x :: lst) =
      some ((List.range k).map (fun j => .find x (n / x ^ j)) ++
        List.replicate (lst.length + 1) (.last (n / x ^ k)), n / x ^ k) := by
  induction k generalizing n with
  | zero =>
      rw [Nat.pow_zero, Nat.div_one] at hstop ⊢
      rw [Nat.zero_add, search_last hstop]
      rfl
  | succ k ih =>
      have hdiv : ∀ j, n / x / x ^ j = n / x ^ (j + 1) := by
        intro j
        rw [Nat.div_div_eq_div_mul, Nat.pow_succ']
      have hcommon : isMultiple n x = true := by
        have h := hall 0 (Nat.succ_pos k)
        rw [Nat.pow_zero, Nat.div_one] at h
        exact (isMultiple_iff n x).mpr h
      have hrest := ih (n := n / x) (fun j hj => hdiv j ▸ hall (j + 1) (Nat.succ_lt_succ hj))
        (hdiv k ▸ hstop)
      have hlines : (List.range k).map (fun j => Line.find x (n / x / x ^ j)) =
          (List.range k).map ((fun j => Line.find x (n / x ^ j)) ∘ Nat.succ) :=
        List.map_congr_left fun j _ => congrArg (Line.find x) (hdiv j)
      rw [Nat.succ_add, search, if_pos hcommon, hrest, hlines, List.range_succ_eq_map,
        List.map_cons, List.map_map, Option.map_some, hdiv k, Nat.pow_zero, Nat.div_one]
      rfl

/-- The program ends. It displays the common multiples from the base on down, each found through a
division by `x`, and its result is the first one in this row that is no common multiple. -/
theorem search_base (x : Nat) (hx : 2 ≤ x) :
    IsCommon x (base (x + 1)) ∧
    ∃ k, 1 ≤ k ∧ x ^ k ∣ base (x + 1) ∧ (∀ j < k, IsCommon x (base (x + 1) / x ^ j)) ∧
      ¬ IsCommon x (base (x + 1) / x ^ k) ∧
      ∀ more, search x (k + ((singles (x + 1)).length + 1 + more)) (base (x + 1))
          (singles (x + 1)).reverse =
        some ((List.range k).map (fun j => .find x (base (x + 1) / x ^ j)) ++
          List.replicate (singles (x + 1)).length (.last (base (x + 1) / x ^ k)),
          base (x + 1) / x ^ k) := by
  obtain ⟨k, hall, hstop, hdvd⟩ := exists_divisions hx (base_pos x)
  obtain ⟨lst, hlst⟩ := reverse_singles hx
  have hlength : (singles (x + 1)).length = lst.length + 1 := by
    rw [← List.length_reverse, hlst, List.length_cons]
  refine ⟨isCommon_base x, k, ?_, hdvd, hall, hstop, fun more => ?_⟩
  · refine Nat.pos_of_ne_zero ?_
    rintro rfl
    rw [Nat.pow_zero, Nat.div_one] at hstop
    exact hstop (isCommon_base x)
  · rw [hlst, hlength]
    exact search_divisions k hall hstop lst more

theorem search_base_twenty : IsCommon 20 (base (20 + 1)) ∧
    ∃ k, 1 ≤ k ∧ 20 ^ k ∣ base (20 + 1) ∧ (∀ j < k, IsCommon 20 (base (20 + 1) / 20 ^ j)) ∧
      ¬ IsCommon 20 (base (20 + 1) / 20 ^ k) ∧
      ∀ more, search 20 (k + ((singles (20 + 1)).length + 1 + more)) (base (20 + 1))
          (singles (20 + 1)).reverse =
        some ((List.range k).map (fun j => .find 20 (base (20 + 1) / 20 ^ j)) ++
          List.replicate (singles (20 + 1)).length (.last (base (20 + 1) / 20 ^ k)),
          base (20 + 1) / 20 ^ k) := search_base 20 (by decide)

end CodeSlices.ProjectEuler.SmallestMultiple
