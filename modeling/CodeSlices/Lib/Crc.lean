import Mathlib.Algebra.CharP.Two
import Mathlib.Algebra.Field.ZMod
import Mathlib.Algebra.Polynomial.Coeff
import Mathlib.Algebra.Polynomial.Monic
import Mathlib.Data.BitVec
import Mathlib.Tactic.LinearCombination

/-!
# Cyclic redundancy checks

A reflected register of `w` bits takes a message bit by bit. It holds a polynomial over the field of
two elements, highest power first, and a message is such a polynomial too. What a run leaves in the
register is the message, moved up by `w` places and with the initial register in front of it, modulo
the generator. Two runs thus agree exactly when the generator divides the difference.
-/

namespace CodeSlices.Crc

open Polynomial

variable {w : Nat} (p : BitVec w)

/-- One bit enters the register, and the generator is taken away where a one leaves it. -/
def shift (crc : BitVec w) (bit : Bool) : BitVec w :=
  if crc.getLsbD 0 ^^ bit then (crc >>> 1) ^^^ p else crc >>> 1

def run (crc : BitVec w) (bits : List Bool) : BitVec w := bits.foldl (shift p) crc

theorem run_cons (crc : BitVec w) (bit : Bool) (bits : List Bool) :
    run p crc (bit :: bits) = run p (shift p crc bit) bits := rfl

theorem run_append (crc : BitVec w) (left right : List Bool) :
    run p crc (left ++ right) = run p (run p crc left) right :=
  List.foldl_append

/-! ### Several bits at once -/

theorem shift_xor (crc crc' : BitVec w) (bit bit' : Bool) :
    shift p (crc ^^^ crc') (bit ^^ bit') = shift p crc bit ^^^ shift p crc' bit' := by
  simp only [shift, BitVec.getLsbD_xor, BitVec.ushiftRight_xor_distrib]
  cases crc.getLsbD 0 <;> cases crc'.getLsbD 0 <;> cases bit <;> cases bit' <;>
    simp [BitVec.xor_assoc, BitVec.xor_comm p]

theorem run_xor (crc crc' : BitVec w) {bits : List Bool} :
    run p (crc ^^^ crc') bits =
      run p crc (List.replicate bits.length false) ^^^ run p crc' bits := by
  induction bits generalizing crc crc' with
  | nil => rfl
  | cons bit bits ih =>
      rw [run_cons, List.length_cons, List.replicate_succ, run_cons, run_cons, ← ih,
        ← shift_xor, Bool.false_xor]

/-- Zeros only move a register without low bits down. -/
theorem run_zeros_of_low {crc : BitVec w} {k : Nat} (hlow : ∀ i < k, crc.getLsbD i = false) :
    run p crc (List.replicate k false) = crc >>> k := by
  induction k generalizing crc with
  | zero => rfl
  | succ k ih =>
      have hshift : shift p crc false = crc >>> 1 := by
        rw [shift, hlow 0 (Nat.succ_pos k)]
        rfl
      rw [List.replicate_succ, run_cons, hshift, ih, ← BitVec.shiftRight_add, Nat.add_comm]
      intro i hi
      rw [BitVec.getLsbD_ushiftRight]
      exact hlow (1 + i) (by omega)

theorem getLsbD_mask (k i : Nat) (hi : i < w) :
    (BitVec.ofNat w (2 ^ k - 1)).getLsbD i = decide (i < k) := by
  rw [BitVec.getLsbD_ofNat, Nat.testBit_two_pow_sub_one]
  simp [hi]

/-- Several bits enter at once with a table for the low bits of the register. -/
theorem run_eq_table (crc : BitVec w) {bits : List Bool} {k : Nat} (hlength : bits.length = k) :
    run p crc bits = crc >>> k ^^^
      (run p (crc &&& BitVec.ofNat w (2 ^ k - 1)) (List.replicate k false) ^^^ run p 0#w bits) := by
  set low := crc &&& BitVec.ofNat w (2 ^ k - 1) with hlow
  set high := crc &&& ~~~BitVec.ofNat w (2 ^ k - 1) with hhigh
  have hsplit : high ^^^ low = crc := by
    refine BitVec.eq_of_getLsbD_eq fun i hi => ?_
    rw [hhigh, hlow, BitVec.getLsbD_xor, BitVec.getLsbD_and, BitVec.getLsbD_and,
      BitVec.getLsbD_not]
    cases crc.getLsbD i <;> cases (BitVec.ofNat w (2 ^ k - 1)).getLsbD i <;> simp [hi]
  have hclear : ∀ i < k, high.getLsbD i = false := by
    intro i hi
    rw [hhigh, BitVec.getLsbD_and, BitVec.getLsbD_not]
    by_cases hw : i < w
    · simp [getLsbD_mask k i hw, hi]
    · simp [hw]
  have hmoved : high >>> k = crc >>> k := by
    refine BitVec.eq_of_getLsbD_eq fun i hi => ?_
    rw [hhigh, BitVec.getLsbD_ushiftRight, BitVec.getLsbD_ushiftRight, BitVec.getLsbD_and,
      BitVec.getLsbD_not]
    by_cases hw : k + i < w
    · rw [getLsbD_mask k (k + i) hw]
      simp [hw]
    · simp [BitVec.getLsbD_of_ge crc (k + i) (Nat.le_of_not_lt hw)]
  have hzeros : run p crc (List.replicate k false) =
      crc >>> k ^^^ run p low (List.replicate k false) := by
    calc
      run p crc (List.replicate k false) = run p (high ^^^ low) (List.replicate k false) := by
        rw [hsplit]
      _ = run p high (List.replicate k false) ^^^ run p low (List.replicate k false) := by
        rw [run_xor, List.length_replicate]
      _ = crc >>> k ^^^ run p low (List.replicate k false) := by
        rw [run_zeros_of_low p hclear, hmoved]
  calc
    run p crc bits = run p (crc ^^^ 0#w) bits := by rw [BitVec.xor_zero]
    _ = run p crc (List.replicate k false) ^^^ run p 0#w bits := by rw [run_xor, hlength]
    _ = _ := by rw [hzeros, BitVec.xor_assoc]

/-! ### Bits and registers as polynomials -/

def coefficient (bit : Bool) : ZMod 2 := if bit then 1 else 0

theorem coefficient_xor (a b : Bool) :
    coefficient (a ^^ b) = coefficient a + coefficient b := by
  cases a <;> cases b <;> decide

theorem coefficient_injective : Function.Injective coefficient := by
  intro a b
  cases a <;> cases b <;> decide

noncomputable def toPoly (crc : BitVec w) : (ZMod 2)[X] :=
  ∑ i ∈ Finset.range w, C (coefficient (crc.getMsbD i)) * X ^ i

noncomputable def generator : (ZMod 2)[X] := X ^ w + toPoly p

/-- The polynomial of a message, its first bit at the highest power. -/
noncomputable def messagePoly : List Bool → (ZMod 2)[X]
  | [] => 0
  | bit :: bits => C (coefficient bit) * X ^ bits.length + messagePoly bits

variable {p} {crc crc' : BitVec w} {bit : Bool}

theorem coeff_toPoly (crc : BitVec w) (i : Nat) :
    (toPoly crc).coeff i = coefficient (crc.getMsbD i) := by
  rw [toPoly, finsetSum_coeff]
  simp only [coeff_C_mul, coeff_X_pow, mul_ite, mul_one, mul_zero, Finset.sum_ite_eq,
    Finset.mem_range]
  by_cases hi : i < w
  · rw [if_pos hi]
  · rw [if_neg hi, BitVec.getMsbD_of_ge _ _ (Nat.le_of_not_lt hi)]
    rfl

theorem toPoly_injective : Function.Injective (toPoly : BitVec w → (ZMod 2)[X]) := by
  intro crc crc' h
  refine BitVec.eq_of_getMsbD_eq fun i _ => coefficient_injective ?_
  rw [← coeff_toPoly, ← coeff_toPoly, h]

theorem degree_toPoly_lt (crc : BitVec w) : (toPoly crc).degree < w := by
  rw [degree_lt_iff_coeff_zero]
  intro i hi
  rw [coeff_toPoly, BitVec.getMsbD_of_ge _ _ hi]
  rfl

theorem toPoly_xor : toPoly (crc ^^^ crc') = toPoly crc + toPoly crc' := by
  ext i
  rw [coeff_add, coeff_toPoly, coeff_toPoly, coeff_toPoly, BitVec.getMsbD_xor, coefficient_xor]

/-- A right shift moves all powers up, and the highest out of the register. -/
theorem toPoly_ushiftRight (hw : 0 < w) (crc : BitVec w) :
    toPoly (crc >>> 1) + C (coefficient (crc.getLsbD 0)) * X ^ w = X * toPoly crc := by
  have hout : crc.getLsbD 0 = crc.getMsbD (w - 1) := by
    rw [BitVec.getMsbD_eq_getLsbD, Nat.sub_self]
    simp [hw]
  ext i
  rw [coeff_add, coeff_C_mul, coeff_X_pow, coeff_toPoly, BitVec.getMsbD_ushiftRight]
  cases i with
  | zero =>
      rw [coeff_X_mul_zero, if_neg hw.ne]
      simp [coefficient]
  | succ i =>
      rw [coeff_X_mul, coeff_toPoly, hout]
      rcases Nat.lt_trichotomy (i + 1) w with hlt | rfl | hgt
      · simp [hlt, hlt.ne]
      · simp [coefficient]
      · have hpast : w ≤ i := Nat.le_of_lt_succ hgt
        rw [BitVec.getMsbD_of_ge crc i hpast, if_neg hgt.ne']
        simp [coefficient, Nat.not_lt_of_lt hgt]

/-- A step multiplies by `X` and adds the bit, up to the generator. -/
theorem generator_dvd_shift (hw : 0 < w) (crc : BitVec w) (bit : Bool) :
    generator p ∣ toPoly (shift p crc bit) - (X * toPoly crc + C (coefficient bit) * X ^ w) := by
  refine ⟨C (coefficient (crc.getLsbD 0 ^^ bit)), ?_⟩
  have hshift : toPoly (shift p crc bit) = toPoly (crc >>> 1) +
      C (coefficient (crc.getLsbD 0 ^^ bit)) * toPoly p := by
    rw [shift]
    cases crc.getLsbD 0 ^^ bit
    · simp [coefficient]
    · simp [coefficient, toPoly_xor]
  have hneg : ∀ q : (ZMod 2)[X], -q = q := CharTwo.neg_eq
  rw [hshift, ← toPoly_ushiftRight hw, generator, coefficient_xor, map_add, sub_eq_add_neg, hneg]
  linear_combination CharTwo.add_self_eq_zero (toPoly (crc >>> 1))

/-- The polynomial that a run reduces. -/
noncomputable def runPoly (crc : BitVec w) (bits : List Bool) : (ZMod 2)[X] :=
  X ^ w * messagePoly bits + toPoly crc * X ^ bits.length

theorem generator_dvd_run (hw : 0 < w) (crc : BitVec w) (bits : List Bool) :
    generator p ∣ toPoly (run p crc bits) - runPoly crc bits := by
  induction bits generalizing crc with
  | nil => simp [run, runPoly, messagePoly]
  | cons bit bits ih =>
      have hstep := Dvd.dvd.mul_right (generator_dvd_shift (p := p) hw crc bit) (X ^ bits.length)
      have hsum := dvd_add (ih (shift p crc bit)) hstep
      rw [run_cons]
      convert hsum using 1
      rw [runPoly, runPoly, messagePoly, List.length_cons]
      ring

theorem eq_of_generator_dvd (h : generator p ∣ toPoly crc - toPoly crc') : crc = crc' := by
  have hmonic : (generator p).Monic := monic_X_pow_add (degree_toPoly_lt p)
  have hdegree : (generator p).degree = w := by
    rw [generator, degree_add_eq_left_of_degree_lt, degree_X_pow]
    rw [degree_X_pow]
    exact degree_toPoly_lt p
  have hlt : (toPoly crc - toPoly crc').degree < (generator p).degree := by
    rw [hdegree]
    exact (degree_sub_le _ _).trans_lt (max_lt (degree_toPoly_lt crc) (degree_toPoly_lt crc'))
  refine toPoly_injective (sub_eq_zero.mp ?_)
  by_contra hne
  exact hmonic.not_dvd_of_degree_lt hne hlt h

/-- Two runs leave the same in the register exactly when the generator divides the difference of
what they reduce. -/
theorem run_eq_run_iff (hw : 0 < w) (bits bits' : List Bool) :
    run p crc bits = run p crc' bits' ↔ generator p ∣ runPoly crc bits - runPoly crc' bits' := by
  have hrun := generator_dvd_run (p := p) hw crc bits
  have hrun' := generator_dvd_run (p := p) hw crc' bits'
  constructor
  · intro heq
    rw [heq] at hrun
    have hdiff := dvd_sub hrun' hrun
    rwa [sub_sub_sub_cancel_left] at hdiff
  · intro hdvd
    refine eq_of_generator_dvd (p := p) ?_
    have hsum := dvd_sub (dvd_add hrun hdvd) hrun'
    convert hsum using 1
    ring

end CodeSlices.Crc
