import Mathlib.Algebra.BigOperators.Intervals
import Mathlib.Data.Nat.Fib.Basic

/-!
# Sums

`lisp/projecteuler.net/p1.rkt` and `p2.rkt`. The loop over the Fibonacci numbers gets the number of
rounds it may take, and has no result when they are used up.
-/

namespace CodeSlices.ProjectEuler.Sums

def sumMulti35 : Nat → Nat → Nat
  | 0, sum => sum
  | n + 1, sum =>
      if (n + 1) % 3 = 0 ∨ (n + 1) % 5 = 0 then sumMulti35 n (n + 1 + sum) else sumMulti35 n sum

def sumEvenFib (max : Nat) : Nat → Nat → Nat → Nat → Option Nat
  | 0, _, _, _ => none
  | fuel + 1, f1, f2, sum =>
      if f2 > max then some sum
      else if f2 % 2 = 0 then sumEvenFib max fuel f2 (f1 + f2) (f2 + sum)
      else sumEvenFib max fuel f2 (f1 + f2) sum

theorem sumMulti35_eq (n sum : Nat) :
    sumMulti35 n sum = sum + ∑ k ∈ Finset.range (n + 1) with 3 ∣ k ∨ 5 ∣ k, k := by
  induction n generalizing sum with
  | zero => rfl
  | succ n ih =>
      have hdvd : ((n + 1) % 3 = 0 ∨ (n + 1) % 5 = 0) ↔ (3 ∣ n + 1 ∨ 5 ∣ n + 1) := by
        rw [Nat.dvd_iff_mod_eq_zero, Nat.dvd_iff_mod_eq_zero]
      rw [sumMulti35, Finset.sum_filter, Finset.sum_range_succ, ← Finset.sum_filter]
      by_cases h : 3 ∣ n + 1 ∨ 5 ∣ n + 1
      · rw [if_pos (hdvd.mpr h), if_pos h, ih]
        omega
      · rw [if_neg (mt hdvd.mp h), if_neg h, ih]
        omega

/-- The even Fibonacci numbers up to a bound, from a place on. -/
def evens (max n : Nat) : Finset Nat :=
  {i ∈ Finset.range (max + 2) | n ≤ i ∧ Nat.fib i ≤ max ∧ 2 ∣ Nat.fib i}

variable {max n : Nat}

theorem mem_evens {i : Nat} : i ∈ evens max n ↔ n ≤ i ∧ Nat.fib i ≤ max ∧ 2 ∣ Nat.fib i := by
  rw [evens, Finset.mem_filter, Finset.mem_range]
  refine and_iff_right_of_imp fun h => ?_
  have hle := Nat.le_fib_add_one i
  omega

theorem evens_of_lt (hlt : max < Nat.fib n) : evens max n = ∅ := by
  refine Finset.eq_empty_of_forall_notMem fun i hi => ?_
  obtain ⟨hn, hle, -⟩ := mem_evens.mp hi
  have hmono := Nat.fib_mono hn
  omega

theorem evens_of_even (hle : Nat.fib n ≤ max) (heven : 2 ∣ Nat.fib n) :
    evens max n = insert n (evens max (n + 1)) := by
  ext i
  rw [Finset.mem_insert, mem_evens, mem_evens]
  constructor
  · rintro ⟨hn, hi⟩
    rcases Nat.eq_or_lt_of_le hn with rfl | hn
    · exact .inl rfl
    · exact .inr ⟨hn, hi⟩
  · rintro (rfl | ⟨hn, hi⟩)
    · exact ⟨le_rfl, hle, heven⟩
    · exact ⟨Nat.le_of_succ_le hn, hi⟩

theorem evens_of_odd (hodd : ¬ 2 ∣ Nat.fib n) : evens max n = evens max (n + 1) := by
  ext i
  rw [mem_evens, mem_evens]
  refine and_congr_left fun hi => ⟨fun hn => Nat.lt_of_le_of_ne hn ?_, Nat.le_of_succ_le⟩
  rintro rfl
  exact hodd hi.2

/-- From two Fibonacci numbers on. -/
theorem sumEvenFib_fib (max n fuel sum : Nat) (hpos : 0 < fuel) (hfuel : max + 2 < n + fuel) :
    sumEvenFib max fuel (Nat.fib n) (Nat.fib (n + 1)) sum =
      some (sum + ∑ i ∈ evens max (n + 1), Nat.fib i) := by
  induction fuel generalizing n sum with
  | zero => exact absurd hpos (Nat.lt_irrefl 0)
  | succ fuel ih =>
      have hnext := ih (n + 1)
      rw [Nat.fib_add_two] at hnext
      rw [sumEvenFib]
      by_cases hmax : Nat.fib (n + 1) > max
      · rw [if_pos hmax, evens_of_lt hmax, Finset.sum_empty, Nat.add_zero]
      · have hle : Nat.fib (n + 1) ≤ max := not_lt.mp hmax
        have hindex := Nat.le_fib_add_one (n + 1)
        rw [if_neg hmax]
        by_cases heven : Nat.fib (n + 1) % 2 = 0
        · have hnot : n + 1 ∉ evens max (n + 1 + 1) := by
            intro hmem
            exact absurd (mem_evens.mp hmem).1 (Nat.not_succ_le_self _)
          rw [if_pos heven, hnext _ (by omega) (by omega),
            evens_of_even hle (Nat.dvd_of_mod_eq_zero heven), Finset.sum_insert hnot]
          congr 1
          omega
        · rw [if_neg heven, hnext _ (by omega) (by omega),
            evens_of_odd fun h => heven (Nat.mod_eq_zero_of_dvd h)]

/-- The loop ends, with the sum of the even Fibonacci numbers up to the bound. -/
theorem sumEvenFib_eq (max more : Nat) :
    ∃ terms : Finset Nat,
      (∀ v, v ∈ terms ↔ 0 < v ∧ v ≤ max ∧ 2 ∣ v ∧ ∃ i, v = Nat.fib i) ∧
      sumEvenFib max (max + 1 + more) 1 2 0 = some (∑ v ∈ terms, v) := by
  have hinj : Set.InjOn Nat.fib (evens max 3) := by
    refine Nat.fib_strictMonoOn.injOn.mono fun i hi => ?_
    exact (mem_evens.mp hi).1.trans' (by decide)
  refine ⟨(evens max 3).image Nat.fib, fun v => ?_, ?_⟩
  · rw [Finset.mem_image]
    constructor
    · rintro ⟨i, hi, rfl⟩
      obtain ⟨hthree, hle, heven⟩ := mem_evens.mp hi
      exact ⟨Nat.fib_pos.mpr (by omega), hle, heven, i, rfl⟩
    · rintro ⟨hpos, hle, heven, i, rfl⟩
      refine ⟨i, mem_evens.mpr ⟨?_, hle, heven⟩, rfl⟩
      by_contra hlt
      have hcases : i = 0 ∨ i = 1 ∨ i = 2 := by omega
      rcases hcases with rfl | rfl | rfl
      · exact absurd hpos (by decide)
      · exact absurd heven (by decide)
      · exact absurd heven (by decide)
  · rw [Finset.sum_image hinj]
    have hrun := sumEvenFib_fib max 2 (max + 1 + more) 0 (by omega) (by omega)
    rwa [Nat.zero_add] at hrun

end CodeSlices.ProjectEuler.Sums
