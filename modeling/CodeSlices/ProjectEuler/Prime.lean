import Mathlib.Algebra.Order.Ring.Int
import Mathlib.Data.Nat.Prime.Int
import Mathlib.Tactic.IntervalCases

/-!
# Trial division

`is-prime?` of `lisp/projecteuler.net/euler.rkt` and the loop that it shares with `p3.rkt`. Numbers
are compared with `eq?`, which sees equal integers as the same only if they are fixnums. The loop
gets the number of rounds it may take, and is still running when they are used up.
-/

namespace CodeSlices.ProjectEuler

inductive Fault
  | divideByZero
  | running
  deriving DecidableEq

/-- How many bits a fixnum has is left to the platform. -/
structure Platform where
  fixnumBits : Nat
  le_fixnumBits : 30 ≤ fixnumBits

namespace Platform

def IsFixnum (m : Platform) (x : ℤ) : Prop :=
  -2 ^ (m.fixnumBits - 1) ≤ x ∧ x < 2 ^ (m.fixnumBits - 1)

instance (m : Platform) (x : ℤ) : Decidable (m.IsFixnum x) :=
  inferInstanceAs (Decidable (_ ∧ _))

/-- `eq?` of two integers. Arithmetic makes a new object of every bignum. -/
def eq (m : Platform) (x y : ℤ) : Bool := decide (x = y ∧ m.IsFixnum x)

variable (m : Platform) {x y : ℤ}

theorem isFixnum_of_small (hlo : 0 ≤ x) (hhi : x < 2 ^ 29) : m.IsFixnum x := by
  have hbits : 29 ≤ m.fixnumBits - 1 := Nat.le_sub_of_add_le m.le_fixnumBits
  have hpow : (2 : ℤ) ^ 29 ≤ 2 ^ (m.fixnumBits - 1) := pow_le_pow_right₀ (by decide) hbits
  constructor <;> omega

theorem eq_self : m.eq x x = decide (m.IsFixnum x) := by simp [eq]

theorem eq_of_ne (hne : x ≠ y) : m.eq x y = false := by simp [eq, hne]

theorem eq_zero : m.eq x 0 = decide (x = 0) := by
  by_cases hx : x = 0
  · simp [hx, eq_self, m.isFixnum_of_small]
  · simp [hx, eq_of_ne]

end Platform

def find (m : Platform) (p : ℤ) : Nat → ℤ → Except Fault Bool
  | 0, _ => .error .running
  | fuel + 1, a =>
      if m.eq p a then .ok true
      else if m.eq (p.tmod a) 0 then .ok false
      else find m p fuel (a + 2)

def isPrime (m : Platform) (fuel : Nat) (p : ℤ) : Except Fault Bool :=
  if p ∈ [1, 2, 3, 5] then .ok true
  else if p % 2 = 0 then .ok false
  else if m.eq (p.tmod 3) 0 then .ok false
  else if m.eq (p.tmod 5) 0 then .ok false
  else find m p fuel 7

variable (m : Platform) {p a fuel : Nat}

theorem eq_tmod_zero (p a : Nat) : m.eq ((p : ℤ).tmod a) 0 = decide (a ∣ p) := by
  rw [m.eq_zero, ← Int.ofNat_tmod]
  exact decide_eq_decide.mpr (Nat.cast_eq_zero.trans Nat.dvd_iff_mod_eq_zero.symm)

theorem seven_le_minFac (hp : 2 ≤ p) (h2 : ¬ 2 ∣ p) (h3 : ¬ 3 ∣ p) (h5 : ¬ 5 ∣ p) :
    7 ≤ p.minFac := by
  have hprime := Nat.minFac_prime (show p ≠ 1 by omega)
  have hdvd := Nat.minFac_dvd p
  by_contra hlt
  have hlt' : p.minFac < 7 := Nat.lt_of_not_le hlt
  interval_cases p.minFac
  all_goals first
    | exact absurd hprime (by decide)
    | exact absurd hdvd (by assumption)

/-- The divisors that are tried come to the least one that there is, and stop there. -/
theorem find_eq (hodd : ¬ 2 ∣ p) (ha : 7 ≤ a) (haodd : ¬ 2 ∣ a) (hle : a ≤ p.minFac)
    (hfuel : p.minFac < a + 2 * fuel) :
    find m p fuel a = .ok (decide (p.Prime ∧ m.IsFixnum p)) := by
  induction fuel generalizing a with
  | zero => omega
  | succ fuel ih =>
      have hp1 : p ≠ 1 := fun h => by simp [h] at hle; omega
      rw [find]
      rcases hle.eq_or_lt with rfl | hlt
      · rw [eq_tmod_zero, decide_eq_true (Nat.minFac_dvd p), if_pos rfl]
        by_cases hprime : p.Prime
        · rw [hprime.minFac_eq, m.eq_self]
          by_cases hfix : m.IsFixnum p <;> simp [hprime, hfix]
        · have hne : (p : ℤ) ≠ p.minFac := fun h =>
            hprime (Nat.prime_def_minFac.mpr ⟨by omega, (Int.ofNat.inj h).symm⟩)
          rw [m.eq_of_ne hne]
          simp [hprime]
      · have hpos : 0 < p := Nat.pos_of_ne_zero fun h => hodd (h ▸ Nat.dvd_zero 2)
        have hne : (p : ℤ) ≠ a := by
          have := Nat.minFac_le hpos
          omega
        have hnot : ¬ a ∣ p := fun h =>
          absurd (Nat.minFac_le_of_dvd (by omega) h) (Nat.not_le_of_lt hlt)
        have hfacodd : ¬ 2 ∣ p.minFac := fun h => hodd (h.trans (Nat.minFac_dvd p))
        rw [m.eq_of_ne hne, eq_tmod_zero, decide_eq_false hnot]
        exact ih (a := a + 2) (by omega) (by omega) (by omega) (by omega)

/-- The loop on a number that has passed the tests before it. -/
theorem find_seven (hp : 2 ≤ p) (h2 : ¬ 2 ∣ p) (h3 : ¬ 3 ∣ p) (h5 : ¬ 5 ∣ p)
    (hfuel : p ≤ fuel) : find m p fuel 7 = .ok (decide (p.Prime ∧ m.IsFixnum p)) := by
  have hle := Nat.minFac_le (show 0 < p by omega)
  exact find_eq m h2 (a := 7) (by omega) (by decide) (seven_le_minFac hp h2 h3 h5) (by omega)

theorem mod_two_eq_zero_iff (p : Nat) : (p : ℤ) % 2 = 0 ↔ 2 ∣ p := by omega

theorem not_prime_of_dvd {q : Nat} (hq : q ≠ 1) (hdvd : q ∣ p) (hne : q ≠ p) : ¬ p.Prime := by
  intro hprime
  exact (hprime.eq_one_or_self_of_dvd q hdvd).elim hq hne

/-- Within the fixnums, `is-prime?` returns, and what it returns is whether the number is prime. -/
theorem isPrime_decides {p : ℤ} (hp : 2 ≤ p) (hfix : m.IsFixnum p) :
    ∃ rounds, ∀ fuel ≥ rounds, isPrime m fuel p = .ok (decide p.toNat.Prime) := by
  obtain ⟨p, rfl⟩ := Int.eq_ofNat_of_zero_le (show 0 ≤ p by omega)
  refine ⟨p, fun fuel hfuel => ?_⟩
  rw [isPrime, Int.toNat_natCast]
  by_cases hmem : (p : ℤ) ∈ [1, 2, 3, 5]
  · have hprime : p.Prime := by
      have hcases : p = 2 ∨ p = 3 ∨ p = 5 := by
        simp only [List.mem_cons, List.not_mem_nil, or_false] at hmem
        omega
      rcases hcases with rfl | rfl | rfl <;> decide
    rw [if_pos hmem, decide_eq_true hprime]
  · have hne : ∀ q ∈ [1, 2, 3, 5], q ≠ p := by
      simp only [List.mem_cons, List.not_mem_nil, or_false] at hmem ⊢
      omega
    have h3 : m.eq ((p : ℤ).tmod 3) 0 = decide (3 ∣ p) := eq_tmod_zero m p 3
    have h5 : m.eq ((p : ℤ).tmod 5) 0 = decide (5 ∣ p) := eq_tmod_zero m p 5
    simp only [if_neg hmem, mod_two_eq_zero_iff, h3, h5, decide_eq_true_eq]
    split_ifs with hd2 hd3 hd5
    · rw [decide_eq_false (not_prime_of_dvd (by decide) hd2 (hne 2 (by decide)))]
    · rw [decide_eq_false (not_prime_of_dvd (by decide) hd3 (hne 3 (by decide)))]
    · rw [decide_eq_false (not_prime_of_dvd (by decide) hd5 (hne 5 (by decide)))]
    · rw [find_seven m (by omega) hd2 hd3 hd5 hfuel]
      exact congrArg _ (decide_eq_decide.mpr (and_iff_left hfix))

/-- Fixnums of 61 bits. -/
def Platform.word64 : Platform := ⟨61, by decide⟩

theorem isPrime_fortyNine :
    ∃ rounds, ∀ fuel ≥ rounds, isPrime .word64 fuel 49 = .ok (decide (Nat.Prime 49)) :=
  isPrime_decides .word64 (p := 49) (by decide)
    (Platform.isFixnum_of_small _ (by decide) (by decide))

end CodeSlices.ProjectEuler
