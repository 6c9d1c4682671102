import CodeSlices.Lib.Crc

/-!
# The checksum

`crc16` of `lisp/utils.rkt`, which its comment compares to that of Qt. It takes the low four bits of
each byte through the table and never the high four. So it is the checksum of another message, and
the two agree where the generator divides the difference.
-/

namespace CodeSlices.Utils

open Polynomial

inductive RacketError
  | contract
  deriving DecidableEq

def crctbl : List Nat :=
  [0x0000, 0x1081, 0x2102, 0x3183,
   0x4204, 0x5285, 0x6306, 0x7387,
   0x8408, 0x9489, 0xa50a, 0xb58b,
   0xc60c, 0xd68d, 0xe70e, 0xf78f]

/-- `cacl` of `crc16`; the index is below 16. -/
def cacl (crc c : Nat) : Nat :=
  ((crc >>> 4) &&& 0xffff) ^^^ crctbl.getD ((crc ^^^ c) &&& 15) 0

def bitwiseNot (n : ℤ) : ℤ := -n - 1

/-- `(bitwise-and n #xffff)` -/
def lowWord (n : ℤ) : ℤ := n % 0x10000

/-- The loop from `i` on, with the number of rounds that are left. -/
def crc16Loop (data : List UInt8) : Nat → Nat → Nat → Except RacketError ℤ
  | 0, _, crc => .ok (lowWord (bitwiseNot crc))
  | n + 1, i, crc =>
      match data[i]? with
      | none => .error .contract
      | some c => crc16Loop data n (i + 1) (cacl crc c.toNat)

def crc16 (data : List UInt8) (len : Nat) : Except RacketError ℤ := crc16Loop data len 0 0xffff

/-! ### The checksum of Qt -/

/-- The bits of a byte, low end first. -/
def byteBits (c : UInt8) : List Bool := (List.range 8).map c.toNat.testBit

/-- The reflected polynomial of CRC-16/X-25. -/
def poly : BitVec 16 := 0x8408

/-- `qChecksum`, bit by bit. -/
def qChecksum (data : List UInt8) : BitVec 16 :=
  ~~~ Crc.run poly 0xffff (data.flatMap byteBits)

/-- The bits of a byte that `crc16` takes. -/
def lowBits (c : UInt8) : List Bool := (List.range 4).map c.toNat.testBit

/-- The generator divides the difference of the message of the low bits and the whole message, each
moved up by 16 places and with 16 ones in front of it. -/
def LowBitsSuffice (data : List UInt8) : Prop :=
  (X ^ 16 + X ^ 12 + X ^ 5 + 1 : (ZMod 2)[X]) ∣
    (X ^ 16 * Crc.messagePoly (data.flatMap lowBits) +
        (∑ i ∈ Finset.range 16, X ^ i) * X ^ (4 * data.length)) -
      (X ^ 16 * Crc.messagePoly (data.flatMap byteBits) +
        (∑ i ∈ Finset.range 16, X ^ i) * X ^ (8 * data.length))

variable {data : List UInt8}

/-! ### One byte -/

theorem crctbl_eq {n : Nat} (hn : n < 16) :
    crctbl.getD n 0 = (Crc.run poly (BitVec.ofNat 16 n) (List.replicate 4 false)).toNat := by
  have hall : ∀ n < 16, crctbl.getD n 0 =
      (Crc.run poly (BitVec.ofNat 16 n) (List.replicate 4 false)).toNat := by decide
  exact hall n hn

theorem crctbl_lowBits (c : UInt8) :
    crctbl.getD (c.toNat % 16) 0 = (Crc.run poly 0#16 (lowBits c)).toNat := by
  have hall : ∀ n < 16, crctbl.getD n 0 =
      (Crc.run poly 0#16 ((List.range 4).map n.testBit)).toNat := by decide
  have hbits : lowBits c = (List.range 4).map (c.toNat % 16).testBit := by
    refine List.map_congr_left fun i hi => ?_
    have hmod := Nat.testBit_mod_two_pow c.toNat 4 i
    rw [List.mem_range] at hi
    simpa [hi] using hmod.symm
  rw [hbits]
  exact hall _ (Nat.mod_lt _ (by decide))

theorem crctbl_xor {a b : Nat} (ha : a < 16) (hb : b < 16) :
    crctbl.getD (a ^^^ b) 0 = crctbl.getD a 0 ^^^ crctbl.getD b 0 := by
  have hall : ∀ a < 16, ∀ b < 16,
      crctbl.getD (a ^^^ b) 0 = crctbl.getD a 0 ^^^ crctbl.getD b 0 := by decide
  exact hall a ha b hb

theorem and_fifteen (n : Nat) : n &&& 15 = n % 16 := Nat.and_two_pow_sub_one_eq_mod n 4

theorem cacl_eq (crc : BitVec 16) (c : UInt8) :
    cacl crc.toNat c.toNat = (Crc.run poly crc (lowBits c)).toNat := by
  have hmod : ∀ n : Nat, n % 16 < 16 := fun n => Nat.mod_lt n (by decide)
  have hmask : crc.toNat >>> 4 &&& 0xffff = crc.toNat >>> 4 := by
    have hlt : crc.toNat >>> 4 < 2 ^ 16 := Nat.lt_of_le_of_lt (Nat.shiftRight_le _ _) crc.isLt
    have hand := Nat.and_two_pow_sub_one_eq_mod (crc.toNat >>> 4) 16
    rwa [Nat.mod_eq_of_lt hlt] at hand
  have hindex : (crc.toNat ^^^ c.toNat) &&& 15 = crc.toNat % 16 ^^^ c.toNat % 16 := by
    rw [Nat.and_xor_distrib_right, and_fifteen, and_fifteen]
  have hlow : crc &&& BitVec.ofNat 16 (2 ^ 4 - 1) = BitVec.ofNat 16 (crc.toNat % 16) := by
    refine BitVec.eq_of_toNat_eq ?_
    rw [BitVec.toNat_and, BitVec.toNat_ofNat, BitVec.toNat_ofNat,
      Nat.mod_eq_of_lt (Nat.lt_trans (hmod crc.toNat) (by decide))]
    exact and_fifteen crc.toNat
  have hlength : (lowBits c).length = 4 := rfl
  rw [cacl, hmask, hindex, crctbl_xor (hmod _) (hmod _), crctbl_eq (hmod _), crctbl_lowBits,
    Crc.run_eq_table poly crc hlength, hlow, BitVec.toNat_xor, BitVec.toNat_xor,
    BitVec.toNat_ushiftRight]

/-! ### The whole message -/

theorem lowWord_bitwiseNot (crc : BitVec 16) : lowWord (bitwiseNot crc.toNat) = (~~~crc).toNat := by
  have hcrc := crc.isLt
  have hnot : (~~~crc).toNat = 2 ^ 16 - 1 - crc.toNat := BitVec.toNat_not
  rw [lowWord, bitwiseNot, hnot]
  omega

theorem crc16Loop_eq {n i : Nat} (crc : BitVec 16) (hn : i + n ≤ data.length) :
    crc16Loop data n i crc.toNat =
      .ok (~~~Crc.run poly crc (((data.drop i).take n).flatMap lowBits)).toNat := by
  induction n generalizing i crc with
  | zero => exact congrArg Except.ok (lowWord_bitwiseNot crc)
  | succ n ih =>
      have hi : i < data.length := by omega
      rw [crc16Loop, List.getElem?_eq_getElem hi, List.drop_eq_getElem_cons hi,
        List.take_succ_cons, List.flatMap_cons, Crc.run_append]
      dsimp only
      rw [cacl_eq, ih _ (by omega)]

theorem crc16_eq {len : Nat} (hlen : len ≤ data.length) :
    crc16 data len = .ok (~~~Crc.run poly 0xffff ((data.take len).flatMap lowBits)).toNat :=
  crc16Loop_eq (0xffff : BitVec 16) (by omega : 0 + len ≤ data.length)

/-! ### Where the two agree -/

theorem generator_poly : Crc.generator poly = X ^ 16 + X ^ 12 + X ^ 5 + 1 := by
  have hbits : ∀ i < 16, Crc.coefficient (poly.getMsbD i) =
      if i = 0 ∨ i = 5 ∨ i = 12 then 1 else 0 := by decide
  have hterms : Crc.toPoly poly =
      ∑ i ∈ Finset.range 16, C (if i = 0 ∨ i = 5 ∨ i = 12 then 1 else 0) * X ^ i :=
    Finset.sum_congr rfl fun i hi => by rw [hbits i (Finset.mem_range.mp hi)]
  rw [Crc.generator, hterms]
  simp [Finset.sum_range_succ]
  ring

theorem toPoly_ones : Crc.toPoly (0xffff : BitVec 16) = ∑ i ∈ Finset.range 16, X ^ i := by
  have hbits : ∀ i < 16, (0xffff : BitVec 16).getMsbD i = true := by decide
  refine Finset.sum_congr rfl fun i hi => ?_
  rw [hbits i (Finset.mem_range.mp hi), Crc.coefficient, if_pos rfl, map_one, one_mul]

theorem runPoly_ones (bits : List Bool) : Crc.runPoly (0xffff : BitVec 16) bits =
    X ^ 16 * Crc.messagePoly bits + (∑ i ∈ Finset.range 16, X ^ i) * X ^ bits.length := by
  rw [Crc.runPoly, toPoly_ones]

theorem length_flatMap {bits : UInt8 → List Bool} {k : Nat} (hbits : ∀ c, (bits c).length = k)
    (data : List UInt8) : (data.flatMap bits).length = k * data.length := by
  induction data with
  | nil => rfl
  | cons c data ih => rw [List.flatMap_cons, List.length_append, hbits, ih, List.length_cons,
      Nat.mul_succ, Nat.add_comm]

/-- The checksum is the one of Qt exactly when the generator divides the difference between the
message of the low bits and the whole message. -/
theorem crc16_eq_qChecksum_iff (data : List UInt8) (len : Nat) (hlen : len ≤ data.length) :
    crc16 data len = .ok (qChecksum (data.take len)).toNat ↔ LowBitsSuffice (data.take len) := by
  have hlow : ∀ c, (lowBits c).length = 4 := fun _ => rfl
  have hbyte : ∀ c, (byteBits c).length = 8 := fun _ => rfl
  have hsame : (~~~Crc.run poly 0xffff ((data.take len).flatMap lowBits)).toNat =
      (qChecksum (data.take len)).toNat ↔ Crc.run poly 0xffff ((data.take len).flatMap lowBits) =
        Crc.run poly 0xffff ((data.take len).flatMap byteBits) := by
    rw [BitVec.toNat_inj, qChecksum, BitVec.not_inj]
  rw [crc16_eq hlen, Except.ok.injEq, Nat.cast_inj, hsame, Crc.run_eq_run_iff (by decide),
    generator_poly, runPoly_ones, runPoly_ones, length_flatMap hlow, length_flatMap hbyte]
  rfl

theorem crc16_twoBytes : crc16 [0x87, 0x48, 0] 2 = .ok (qChecksum [0x87, 0x48]).toNat ∧
    LowBitsSuffice [0x87, 0x48] := by
  have hiff := crc16_eq_qChecksum_iff [0x87, 0x48, 0] 2 (by decide)
  exact ⟨by decide +kernel, hiff.mp (by decide +kernel)⟩

/-- No single byte is enough for itself without its high bits. -/
theorem crc16_byte_ne (c : UInt8) : crc16 [c] 1 ≠ .ok (qChecksum [c]).toNat := by
  have hall : ∀ n < 256, crc16 [UInt8.ofNat n] 1 ≠ .ok (qChecksum [UInt8.ofNat n]).toNat := by
    decide +kernel
  have hc := hall c.toNat c.toNat_lt
  rwa [UInt8.ofNat_toNat] at hc

theorem crc16_zeroByte : crc16 [0] 1 = .ok 0x078f ∧ qChecksum [0] = 0xf078 ∧
    crc16 [0] 1 ≠ .ok (qChecksum [0]).toNat := by
  decide

end CodeSlices.Utils
