import Mathlib.Data.Nat.Digits.Defs
import CodeSlices.Lib.Except
import CodeSlices.StringFind.Program

/-!
# Hexadecimal digits

The macros and the decoder of `c/hex-dec.c`. `UPCASE` takes 27 from a lower-case letter, where the
upper-case one is 32 below, so `a` comes out as `F` and the other letters as no digit. The decoder
multiplies its base by 16 after each digit, the last one too.
-/

namespace CodeSlices.HexDec

open StringFind (CString toSize)

inductive Fault
  | overflow
  | divideByZero
  deriving DecidableEq

/-- `UPCASE` -/
def upcase (c : UInt8) : UInt8 := if 'a'.toUInt8 ≤ c ∧ c ≤ 'z'.toUInt8 then c - 27 else c

/-- `IS_HEX_CHAR` -/
def isHexChar (c : UInt8) : Bool :=
  ('0'.toUInt8 ≤ c && c ≤ '9'.toUInt8) || ('A'.toUInt8 ≤ c && c ≤ 'F'.toUInt8) ||
    ('a'.toUInt8 ≤ c && c ≤ 'f'.toUInt8)

def hexCharToDec (hex : UInt8) : Nat :=
  if ¬ isHexChar hex then 0
  else if hex > '9'.toUInt8 then hex.toNat - 'A'.toNat + 10
  else hex.toNat - '0'.toNat

/-- The value of an `int` expression. -/
def int (z : ℤ) : Except Fault ℤ :=
  if -2 ^ 31 ≤ z ∧ z < 2 ^ 31 then .ok z else .error .overflow

/-- `(short) z` -/
def toShort (z : ℤ) : ℤ := z.bmod (2 ^ 16)

/-- The loop of `bt_char2_to_byte`, with the number of characters that are left. -/
def btLoop (c : List UInt8) : Nat → ℤ → ℤ → Except Fault ℤ
  | 0, ret, _ => .ok ret
  | size + 1, ret, base => do
      let product ← int (hexCharToDec (upcase (c.getD size 0)) * base)
      let sum ← int (ret + product)
      let base ← int (base * 16)
      btLoop c size (toShort sum) base

def btChar2ToByte (c : Option CString) (size : ℤ) : Except Fault ℤ :=
  match c with
  | none => .ok 0
  | some c => if c.bytes.length < toSize size then .ok 0 else btLoop c.bytes size.toNat 0 1

/-! ### What the digits stand for -/

def digitValue (c : UInt8) : Nat :=
  if c ≤ '9'.toUInt8 then c.toNat - '0'.toNat
  else if c ≤ 'F'.toUInt8 then c.toNat - 'A'.toNat + 10
  else c.toNat - 'a'.toNat + 10

def hexValue (digits : List UInt8) : Nat := Nat.ofDigits 16 (digits.reverse.map digitValue)

def IsLower (c : UInt8) : Prop := 'a'.toUInt8 ≤ c ∧ c ≤ 'f'.toUInt8

instance : DecidablePred IsLower := fun _ => inferInstanceAs (Decidable (_ ∧ _))

/-- The digits that count in 16 bits. -/
def lastFour (digits : List UInt8) : List UInt8 := digits.reverse.take 4

variable {bytes : List UInt8} {c : UInt8} {s : CString} {size k : Nat} {ret z : ℤ}

theorem forall_uint8 {P : UInt8 → Prop} (h : ∀ n < 256, P (UInt8.ofNat n)) (c : UInt8) : P c := by
  have hc := h c.toNat c.toNat_lt
  rwa [UInt8.ofNat_toNat] at hc

theorem hexCharToDec_upcase_lt (c : UInt8) : hexCharToDec (upcase c) < 16 :=
  forall_uint8 (P := fun c => hexCharToDec (upcase c) < 16) (by decide +kernel) c

theorem digitValue_lt (hc : isHexChar c) : digitValue c < 16 :=
  forall_uint8 (P := fun c => isHexChar c → digitValue c < 16) (by decide +kernel) c hc

theorem hexCharToDec_upcase_eq_iff (hc : isHexChar c) :
    hexCharToDec (upcase c) = digitValue c ↔ ¬ IsLower c :=
  forall_uint8 (P := fun c => isHexChar c → (hexCharToDec (upcase c) = digitValue c ↔ ¬ IsLower c))
    (by decide +kernel) c hc

/-! ### The loop -/

theorem int_ok (hlow : -2 ^ 31 ≤ z) (hhigh : z < 2 ^ 31) : int z = .ok z := if_pos ⟨hlow, hhigh⟩

/-- The only error of an `int` expression is that it overflows. -/
theorem int_bind_overflow {next : ℤ → Except Fault ℤ} (z : ℤ) (hnext : next z = .error .overflow) :
    int z >>= next = .error .overflow := by
  unfold int
  split
  · exact hnext
  · rfl

theorem toShort_bounds (z : ℤ) : -2 ^ 15 ≤ toShort z ∧ toShort z < 2 ^ 15 :=
  ⟨Int.le_bmod (by decide), Int.bmod_lt (by decide)⟩

theorem toShort_add (z w : ℤ) : toShort (toShort z + w) = toShort (z + w) := Int.bmod_add_bmod

/-- One round with a base that overflows neither in the product nor afterwards. -/
theorem btLoop_succ (hk : k < 7) (hret : -2 ^ 15 ≤ ret ∧ ret < 2 ^ 15) :
    btLoop bytes (size + 1) ret (16 ^ k) = btLoop bytes size
      (toShort (ret + hexCharToDec (upcase (bytes.getD size 0)) * 16 ^ k)) (16 ^ (k + 1)) := by
  have hdigit := hexCharToDec_upcase_lt (bytes.getD size 0)
  have hpow : (16 : ℤ) ^ k ≤ 16 ^ 6 := pow_le_pow_right₀ (by decide) (Nat.le_of_lt_succ hk)
  have hpos : (0 : ℤ) < 16 ^ k := pow_pos (by decide) k
  rw [btLoop]
  generalize hexCharToDec (upcase (bytes.getD size 0)) = digit at hdigit ⊢
  have hprod : (digit : ℤ) * 16 ^ k ≤ 15 * 16 ^ 6 :=
    mul_le_mul (by omega) hpow hpos.le (by decide)
  have hprod0 : (0 : ℤ) ≤ digit * 16 ^ k := mul_nonneg (by omega) hpos.le
  rw [int_ok (by omega) (by omega), ok_bind, int_ok (by omega) (by omega), ok_bind,
    int_ok (by omega) (by omega), ok_bind, pow_succ]

/-- The digits as the code takes them, the last one first. -/
def takenDigits (digits : List UInt8) : List Nat :=
  digits.reverse.map fun c => hexCharToDec (upcase c)

def takenValue (digits : List UInt8) : Nat := Nat.ofDigits 16 (takenDigits digits)

theorem takenValue_take_succ (hsize : size < bytes.length) :
    takenValue (bytes.take (size + 1)) =
      hexCharToDec (upcase (bytes.getD size 0)) + 16 * takenValue (bytes.take size) := by
  have hget : bytes.getD size 0 = bytes[size] := by
    rw [List.getD_eq_getElem?_getD, List.getElem?_eq_getElem hsize, Option.getD_some]
  rw [takenValue, takenDigits, List.take_add_one, List.getElem?_eq_getElem hsize, hget,
    Option.toList_some, List.reverse_append, List.reverse_singleton, List.singleton_append,
    List.map_cons, Nat.ofDigits_cons]
  rfl

theorem btLoop_eq (hsize : size ≤ bytes.length) (hk : k + size ≤ 7) :
    btLoop bytes size (toShort z) (16 ^ k) =
      .ok (toShort (z + 16 ^ k * takenValue (bytes.take size))) := by
  induction size generalizing k z with
  | zero => simp [btLoop, takenValue, takenDigits]
  | succ size ih =>
      rw [btLoop_succ (by omega) (toShort_bounds z), toShort_add,
        ih (Nat.le_of_succ_le hsize) (by omega), takenValue_take_succ hsize]
      push_cast
      ring_nf

/-- The eighth digit multiplies the base to `2 ^ 32`. -/
theorem btLoop_overflow (hk : k ≤ 7) (hsize : 7 < k + size) :
    btLoop bytes size (toShort z) (16 ^ k) = .error .overflow := by
  induction size generalizing k z with
  | zero => omega
  | succ size ih =>
      rcases hk.eq_or_lt with rfl | hlt
      · rw [btLoop]
        refine int_bind_overflow _ (int_bind_overflow _ ?_)
        rfl
      · rw [btLoop_succ hlt (toShort_bounds z)]
        exact ih hlt (by omega)

theorem btChar2ToByte_eq (hsize : size ≤ s.bytes.length) :
    btChar2ToByte (some s) size =
      if size ≤ 7 then .ok (toShort (takenValue (s.bytes.take size)))
      else .error .overflow := by
  have hlen : ¬ s.bytes.length < toSize size := by
    unfold toSize
    omega
  have hstart : btLoop s.bytes size 0 1 = btLoop s.bytes size (toShort 0) (16 ^ 0) := rfl
  rw [btChar2ToByte, if_neg hlen, Int.toNat_natCast, hstart]
  split
  · rename_i hle
    rw [btLoop_eq hsize (by omega), pow_zero, one_mul, zero_add]
  · exact btLoop_overflow (by omega) (by omega)

/-! ### When the value is right -/

theorem toShort_natCast_eq_iff (a b : Nat) :
    toShort a = toShort b ↔ a % 16 ^ 4 = b % 16 ^ 4 := by
  have hmod : toShort a = toShort b ↔ (a : ℤ) % (2 ^ 16 : Nat) = (b : ℤ) % (2 ^ 16 : Nat) := by
    refine ⟨fun h => ?_, fun h => ?_⟩
    · rw [← Int.bmod_emod, ← Int.bmod_emod (x := (b : ℤ))]
      exact congrArg (· % ((2 ^ 16 : Nat) : ℤ)) h
    · rw [toShort, toShort, ← Int.emod_bmod, h, Int.emod_bmod]
  rw [hmod]
  omega

theorem ofDigits_mod_eq_iff {xs ys : List Nat} (hxs : ∀ x ∈ xs, x < 16) (hys : ∀ y ∈ ys, y < 16)
    (hlen : xs.length = ys.length) :
    Nat.ofDigits 16 xs % 16 ^ 4 = Nat.ofDigits 16 ys % 16 ^ 4 ↔ xs.take 4 = ys.take 4 := by
  rw [Nat.ofDigits_mod_pow_eq_ofDigits_take 4 (by decide) xs hxs,
    Nat.ofDigits_mod_pow_eq_ofDigits_take 4 (by decide) ys hys]
  refine ⟨fun h => ?_, fun h => congrArg _ h⟩
  refine Nat.ofDigits_inj_of_len_eq (by decide) ?_ ?_ ?_ h
  · rw [List.length_take, List.length_take, hlen]
  · exact fun x hx => hxs x (List.mem_of_mem_take hx)
  · exact fun y hy => hys y (List.mem_of_mem_take hy)

theorem takenDigits_lt (digits : List UInt8) : ∀ d ∈ takenDigits digits, d < 16 := by
  intro d hd
  obtain ⟨c, -, rfl⟩ := List.mem_map.mp hd
  exact hexCharToDec_upcase_lt c

theorem takenValue_mod_eq_iff_lastFour {xs ys : List UInt8} (hlen : xs.length = ys.length) :
    takenValue xs % 16 ^ 4 = takenValue ys % 16 ^ 4 ↔
      (lastFour xs).map (fun c => hexCharToDec (upcase c)) =
        (lastFour ys).map fun c => hexCharToDec (upcase c) := by
  rw [takenValue, takenValue, ofDigits_mod_eq_iff (takenDigits_lt _) (takenDigits_lt _)
    (by simpa [takenDigits] using hlen), takenDigits, takenDigits, ← List.map_take,
    ← List.map_take, lastFour, lastFour]

theorem lastFour_map (f : UInt8 → UInt8) (digits : List UInt8) :
    lastFour (digits.map f) = (lastFour digits).map f := by
  rw [lastFour, ← List.map_reverse, ← List.map_take, lastFour]

theorem takenValue_mod_eq_iff {digits : List UInt8} (hhex : ∀ d ∈ digits, isHexChar d) :
    takenValue digits % 16 ^ 4 = hexValue digits % 16 ^ 4 ↔ ∀ d ∈ lastFour digits, ¬ IsLower d := by
  have hvalues : ∀ v ∈ digits.reverse.map digitValue, v < 16 := by
    intro v hv
    obtain ⟨d, hd, rfl⟩ := List.mem_map.mp hv
    exact digitValue_lt (hhex d (List.mem_reverse.mp hd))
  rw [takenValue, hexValue,
    ofDigits_mod_eq_iff (takenDigits_lt digits) hvalues (by simp [takenDigits]), takenDigits,
    ← List.map_take, ← List.map_take, List.map_inj_left]
  refine forall₂_congr fun d hd => hexCharToDec_upcase_eq_iff (hhex d ?_)
  exact List.mem_reverse.mp (List.mem_of_mem_take hd)

/-- The digits of both are the same up to the case of the letters. -/
def SameUpToCase (digits digits' : List UInt8) : Prop :=
  (∀ d ∈ digits', isHexChar d) ∧ digits'.map digitValue = digits.map digitValue

/-- Every string whose first characters are the same up to case gives the same result. -/
def CaseBlind (s : CString) (size : Nat) : Prop :=
  ∀ s' : CString, SameUpToCase (s.bytes.take size) (s'.bytes.take size) →
    btChar2ToByte (some s') size = btChar2ToByte (some s) size

def toUpper (c : UInt8) : UInt8 := if IsLower c then c - 32 else c

def toLower (c : UInt8) : UInt8 := if 'A'.toUInt8 ≤ c ∧ c ≤ 'F'.toUInt8 then c + 32 else c

theorem toUpper_spec (hc : isHexChar c) :
    isHexChar (toUpper c) ∧ digitValue (toUpper c) = digitValue c ∧ ¬ IsLower (toUpper c) :=
  forall_uint8 (P := fun c => isHexChar c → isHexChar (toUpper c) ∧
    digitValue (toUpper c) = digitValue c ∧ ¬ IsLower (toUpper c)) (by decide +kernel) c hc

theorem toLower_spec (hc : isHexChar c) :
    isHexChar (toLower c) ∧ digitValue (toLower c) = digitValue c ∧
      (10 ≤ digitValue c → IsLower (toLower c)) :=
  forall_uint8 (P := fun c => isHexChar c → isHexChar (toLower c) ∧
    digitValue (toLower c) = digitValue c ∧ (10 ≤ digitValue c → IsLower (toLower c)))
    (by decide +kernel) c hc

theorem eq_of_digitValue_lt {d : UInt8} (hc : isHexChar c) (hd : isHexChar d)
    (heq : digitValue d = digitValue c) (hlt : digitValue c < 10) : d = c := by
  have hone : ∀ c : UInt8, isHexChar c → digitValue c < 10 → c.toNat = digitValue c + 48 :=
    forall_uint8 (by decide +kernel)
  have hc' := hone c hc hlt
  have hd' := hone d hd (heq ▸ hlt)
  exact UInt8.toNat_inj.mp (by omega)

theorem eq_of_map_digitValue_eq {xs ys : List UInt8} (hxs : ∀ x ∈ xs, isHexChar x)
    (hys : ∀ y ∈ ys, isHexChar y) (heq : ys.map digitValue = xs.map digitValue)
    (hlt : ∀ x ∈ xs, digitValue x < 10) : ys = xs := by
  induction xs generalizing ys with
  | nil => exact List.map_eq_nil_iff.mp heq
  | cons x xs ih =>
      obtain ⟨y, ys, rfl, hhead, htail⟩ := List.map_eq_cons_iff.mp heq
      simp only [List.forall_mem_cons] at hxs hys hlt
      rw [eq_of_digitValue_lt hxs.1 hys.1 hhead hlt.1, ih hxs.2 hys.2 htail hlt.2]

theorem SameUpToCase.length_le {digits : List UInt8} (hsize : digits.length = size)
    (hsame : SameUpToCase digits (bytes.take size)) : size ≤ bytes.length := by
  have hlen := congrArg List.length hsame.2
  rw [List.length_map, List.length_map, List.length_take, hsize] at hlen
  omega

theorem exists_recased (hhex : ∀ d ∈ s.bytes.take size, isHexChar d) {f : UInt8 → UInt8}
    (hf : ∀ c, isHexChar c → isHexChar (f c) ∧ digitValue (f c) = digitValue c) :
    ∃ s' : CString, s'.bytes.take size = (s.bytes.take size).map f ∧
      SameUpToCase (s.bytes.take size) (s'.bytes.take size) := by
  have hnul : 0 ∉ (s.bytes.take size).map f := by
    rintro hmem
    obtain ⟨d, hd, hzero⟩ := List.mem_map.mp hmem
    have hchar := (hf d (hhex d hd)).1
    rw [hzero] at hchar
    exact absurd hchar (by decide)
  have htake : ((s.bytes.take size).map f).take size = (s.bytes.take size).map f :=
    List.take_of_length_le (by simp)
  refine ⟨⟨(s.bytes.take size).map f, hnul⟩, htake, ?_⟩
  change SameUpToCase _ (((s.bytes.take size).map f).take size)
  rw [htake]
  constructor
  · intro d hd
    obtain ⟨c, hc, rfl⟩ := List.mem_map.mp hd
    exact (hf c (hhex c hc)).1
  · rw [List.map_map]
    exact List.map_congr_left fun c hc => (hf c (hhex c hc)).2

section Decoded

variable (hsize : size ≤ s.bytes.length) (hhex : ∀ d ∈ s.bytes.take size, isHexChar d)
include hsize hhex

/-- A letter among the last four digits gives one result in upper and another in lower case. -/
theorem not_caseBlind {d : UInt8} (hle : size ≤ 7) (hd : d ∈ lastFour (s.bytes.take size))
    (hletter : 10 ≤ digitValue d) : ¬ CaseBlind s size := by
  intro hblind
  obtain ⟨upper, hupper, hsameUpper⟩ := exists_recased hhex
    fun c hc => ⟨(toUpper_spec hc).1, (toUpper_spec hc).2.1⟩
  obtain ⟨lower, hlower, hsameLower⟩ := exists_recased hhex
    fun c hc => ⟨(toLower_spec hc).1, (toLower_spec hc).2.1⟩
  have hresult := (hblind upper hsameUpper).trans (hblind lower hsameLower).symm
  have hlen := List.length_take_of_le hsize
  rw [btChar2ToByte_eq (hsameUpper.length_le hlen), btChar2ToByte_eq (hsameLower.length_le hlen),
    if_pos hle, if_pos hle] at hresult
  have hmod := (toShort_natCast_eq_iff _ _).mp (Except.ok.inj hresult)
  rw [hupper, hlower, takenValue_mod_eq_iff_lastFour (by simp), lastFour_map, lastFour_map,
    List.map_map, List.map_map, List.map_inj_left] at hmod
  have hchar : isHexChar d := hhex d (List.mem_reverse.mp (List.mem_of_mem_take hd))
  obtain ⟨hup, hupValue, hnotLower⟩ := toUpper_spec hchar
  obtain ⟨hlow, hlowValue, hisLower⟩ := toLower_spec hchar
  have heq : hexCharToDec (upcase (toUpper d)) = hexCharToDec (upcase (toLower d)) := hmod d hd
  rw [(hexCharToDec_upcase_eq_iff hup).mpr hnotLower, hupValue, ← hlowValue] at heq
  exact (hexCharToDec_upcase_eq_iff hlow).mp heq.symm (hisLower hletter)

theorem caseBlind_iff : CaseBlind s size ↔
    7 < size ∨ ∀ d ∈ lastFour (s.bytes.take size), digitValue d < 10 := by
  constructor
  · intro hblind
    by_contra hnot
    obtain ⟨hle, d, hd, hletter⟩ : size ≤ 7 ∧ ∃ d ∈ lastFour (s.bytes.take size),
        10 ≤ digitValue d := by simpa using hnot
    exact not_caseBlind hsize hhex hle hd hletter hblind
  · intro hcase s' hsame
    rw [btChar2ToByte_eq hsize, btChar2ToByte_eq (hsame.length_le (List.length_take_of_le hsize))]
    rcases hcase with hlong | hdigits
    · rw [if_neg (by omega), if_neg (by omega)]
    · have hlast : lastFour (s'.bytes.take size) = lastFour (s.bytes.take size) := by
        refine eq_of_map_digitValue_eq (fun d hd => hhex d ?_) (fun d hd => hsame.1 d ?_) ?_ hdigits
        · exact List.mem_reverse.mp (List.mem_of_mem_take hd)
        · exact List.mem_reverse.mp (List.mem_of_mem_take hd)
        · rw [lastFour, lastFour, List.map_take, List.map_take, List.map_reverse, hsame.2,
            List.map_reverse]
      have hmod : takenValue (s'.bytes.take size) % 16 ^ 4 =
          takenValue (s.bytes.take size) % 16 ^ 4 := by
        have hlen := congrArg List.length hsame.2
        rw [List.length_map, List.length_map] at hlen
        rw [takenValue_mod_eq_iff_lastFour hlen, hlast]
      rw [(toShort_natCast_eq_iff _ _).mpr hmod]

/-- The value is right for at most seven digits without a lower-case letter among the last four, and
the case does not matter where the last four have no letter or the base overflows anyway. -/
theorem btChar2ToByte_eq_hexValue_iff :
    (btChar2ToByte (some s) size = .ok (toShort (hexValue (s.bytes.take size))) ↔
      size ≤ 7 ∧ ∀ d ∈ lastFour (s.bytes.take size), ¬ IsLower d) ∧
    (CaseBlind s size ↔ 7 < size ∨ ∀ d ∈ lastFour (s.bytes.take size), digitValue d < 10) := by
  refine ⟨?_, caseBlind_iff hsize hhex⟩
  rw [btChar2ToByte_eq hsize, ← takenValue_mod_eq_iff hhex, ← toShort_natCast_eq_iff]
  by_cases hle : size ≤ 7
  · rw [if_pos hle, Except.ok.injEq, and_iff_right hle]
  · rw [if_neg hle]
    exact iff_of_false (by simp) fun h => hle h.1

end Decoded

def oneAF : CString := ⟨['1', 'A', 'F'].map Char.toUInt8, by decide⟩

theorem btChar2ToByte_oneAF :
    (btChar2ToByte (some oneAF) 3 = .ok (toShort (hexValue (oneAF.bytes.take 3))) ↔
      3 ≤ 7 ∧ ∀ d ∈ lastFour (oneAF.bytes.take 3), ¬ IsLower d) ∧
    (CaseBlind oneAF 3 ↔ 7 < 3 ∨ ∀ d ∈ lastFour (oneAF.bytes.take 3), digitValue d < 10) :=
  btChar2ToByte_eq_hexValue_iff (by decide) (by decide +kernel)

/-- The digit `a` comes out as 15, and eight zeros overflow the base. -/
theorem lowerA_fifteen :
    btChar2ToByte (some ⟨['a'.toUInt8], by decide⟩) 1 = .ok 15 ∧ hexValue ['a'.toUInt8] = 10 ∧
    btChar2ToByte (some ⟨List.replicate 8 '0'.toUInt8, by decide⟩) 8 = .error .overflow := by
  decide

end CodeSlices.HexDec
