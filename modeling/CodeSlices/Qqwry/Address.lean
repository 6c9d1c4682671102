import Mathlib.Data.Nat.Bitwise
import Mathlib.Data.Nat.Digits.Defs
import Mathlib.Data.List.Count

/-!
# Addresses

`EvaIPAddress` of `tools/qqwry-ip/evaipaddress.cpp`: the number of a text with three dots, and the
text of a number.
-/

namespace CodeSlices.Qqwry

/-- A text whose positions, and the count of its dots, are numbers of type `int`. -/
structure Text where
  chars : List Char
  length_lt : chars.length < 2147483648
  deriving DecidableEq

structure EvaIPAddress where
  isValidIP : Bool
  mIP : UInt64
  deriving DecidableEq

/-- `atoi` of a text of digits: `strtol` stops at its greatest number, of which 32 bits are kept. -/
def atoi (text : List Char) : ℤ :=
  ((min (Nat.ofDigitChars 10 text 0) (2 ^ 63 - 1) : ℕ) : ℤ).bmod (2 ^ 32)

/-- `substr`, for which a negative count is a great one. -/
def substr (text : List Char) (start : Nat) (count : ℤ) : List Char :=
  if count < 0 then text.drop start else (text.drop start).take count.toNat

/-- The loop over `j`, which leaves `end` as it is where no dot follows. -/
def scanPart : List Char → Nat → ℤ → Option ℤ
  | [], _, fin => some fin
  | c :: rest, j, fin =>
      if c = '.' then some j
      else if c < '0' ∨ '9' < c then none
      else scanPart rest (j + 1) fin

/-- One part, with the `end` that the next one starts behind. -/
def getPart (strIP : List Char) (start : Nat) (fin : ℤ) : Option (UInt8 × ℤ) :=
  (scanPart (strIP.drop start) start fin).bind fun fin =>
    let tmpInt := atoi (substr strIP start (fin - start))
    if tmpInt < 0 ∨ 255 < tmpInt then none else some (UInt8.ofNat tmpInt.toNat, fin)

def pack (a b c d : UInt8) : UInt64 :=
  a.toUInt64 <<< 24 ||| b.toUInt64 <<< 16 ||| c.toUInt64 <<< 8 ||| d.toUInt64

/-- The loop over `i`, for the parts that are left. -/
def getParts (strIP : List Char) : Nat → Nat → ℤ → Option (List UInt8)
  | 0, _, _ => some []
  | n + 1, start, fin =>
      (getPart strIP start fin).bind fun p =>
        (getParts strIP n (p.2 + 1).toNat p.2).map (p.1 :: ·)

def packParts : List UInt8 → Option UInt64
  | [a, b, c, d] => some (pack a b c d)
  | _ => none

/-- The number of a text, or nothing where `getIntIP` gives up. -/
def parse (strIP : List Char) : Option UInt64 :=
  if strIP.count '.' ≠ 3 then none else (getParts strIP 4 0 0).bind packParts

def EvaIPAddress.getIntIP (address : EvaIPAddress) (strIP : Text) : UInt64 × EvaIPAddress :=
  match parse strIP.chars with
  | none => (0, { address with isValidIP := false })
  | some ip => (ip, address)

/-- The constructor from a text, for which the number 0 is no address. -/
def EvaIPAddress.ofText (strIP : Text) : EvaIPAddress :=
  let (ip, address) := EvaIPAddress.getIntIP ⟨false, 0⟩ strIP
  ⟨if ip ≠ 0 then true else address.isValidIP, ip⟩

def EvaIPAddress.ofNumber (ip : UInt64) : EvaIPAddress := ⟨true, ip⟩

/-- `(int)(mIP&mask)>>shift`. -/
def octet (mIP mask : UInt64) (shift : Nat) : ℤ :=
  ((mIP &&& mask).toNat : ℤ).bmod (2 ^ 32) >>> shift

/-- `"%d"`. -/
def decimal (n : ℤ) : List Char :=
  if n < 0 then '-' :: Nat.toDigits 10 n.natAbs else Nat.toDigits 10 n.natAbs

def dotted (a b c d : List Char) : List Char := a ++ '.' :: (b ++ '.' :: (c ++ '.' :: d))

/-- What `sprintf` writes in `toString`. -/
def EvaIPAddress.text (address : EvaIPAddress) : List Char :=
  dotted (decimal (octet address.mIP 0xFF000000 24)) (decimal (octet address.mIP 0xFF0000 16))
    (decimal (octet address.mIP 0xFF00 8)) (decimal (octet address.mIP 0xFF 0))

/-- `strIP` has 16 characters; with a longer text `sprintf` writes past them. -/
def EvaIPAddress.toString (address : EvaIPAddress) : Option Text :=
  if h : address.text.length < 16 then some ⟨address.text, by omega⟩ else none

theorem EvaIPAddress.toString_of_lt {address : EvaIPAddress} (h : address.text.length < 16) :
    address.toString = some ⟨address.text, by omega⟩ := dif_pos h

theorem EvaIPAddress.toString_of_not_lt {address : EvaIPAddress}
    (h : ¬ address.text.length < 16) : address.toString = none := dif_neg h

/-- A part that is taken, with its number. -/
def Part (text : List Char) (n : UInt8) : Prop :=
  (∀ c ∈ text, c.isDigit) ∧ atoi text = n.toNat

/-- The number of a part that is taken. -/
def takePart (text : List Char) : Option UInt8 :=
  if text.all Char.isDigit ∧ ¬ (atoi text < 0 ∨ 255 < atoi text) then
    some (UInt8.ofNat (atoi text).toNat)
  else none

/-! ### Reading -/

variable {text strIP part rest a b c d : List Char} {start : Nat} {fin : ℤ} {n : UInt8}

theorem isDigit_iff (c : Char) : c.isDigit = true ↔ ¬ (c < '0' ∨ '9' < c) := by
  rw [Char.isDigit, Bool.and_eq_true, decide_eq_true_eq, decide_eq_true_eq, not_or, Char.not_lt,
    Char.not_lt]
  rfl

theorem not_dot_of_digits (h : ∀ c ∈ text, c.isDigit) : '.' ∉ text :=
  fun hmem => absurd (h '.' hmem) (by decide)

theorem scanPart_dot (hnot : '.' ∉ part) (j : Nat) (fin : ℤ) :
    scanPart (part ++ '.' :: rest) j fin =
      if part.all Char.isDigit then some ((j + part.length : Nat) : ℤ) else none := by
  induction part generalizing j with
  | nil => rfl
  | cons x part ih =>
      obtain ⟨hx, hpart⟩ := List.ne_and_not_mem_of_not_mem_cons hnot
      rw [List.cons_append, scanPart, if_neg (Ne.symm hx), ih hpart, List.all_cons,
        List.length_cons, Nat.add_assoc, Nat.add_comm 1]
      cases hdigit : x.isDigit with
      | true => rw [if_neg ((isDigit_iff x).mp hdigit), Bool.true_and]
      | false =>
          have hother : x < '0' ∨ '9' < x :=
            not_not.mp fun h => Bool.false_ne_true (hdigit ▸ (isDigit_iff x).mpr h)
          rw [if_pos hother, Bool.false_and, if_neg Bool.false_ne_true]

theorem scanPart_last (hnot : '.' ∉ part) (j : Nat) (fin : ℤ) :
    scanPart part j fin = if part.all Char.isDigit then some fin else none := by
  induction part generalizing j with
  | nil => rfl
  | cons x part ih =>
      obtain ⟨hx, hpart⟩ := List.ne_and_not_mem_of_not_mem_cons hnot
      rw [scanPart, if_neg (Ne.symm hx), ih hpart, List.all_cons]
      cases hdigit : x.isDigit with
      | true => rw [if_neg ((isDigit_iff x).mp hdigit), Bool.true_and]
      | false =>
          have hother : x < '0' ∨ '9' < x :=
            not_not.mp fun h => Bool.false_ne_true (hdigit ▸ (isDigit_iff x).mpr h)
          rw [if_pos hother, Bool.false_and, if_neg Bool.false_ne_true]

theorem takePart_eq_some_iff : takePart text = some n ↔ Part text n := by
  have hn : n.toNat < 256 := n.toNat_lt
  constructor
  · intro h
    obtain ⟨⟨hdigits, hrange⟩, heq⟩ := Option.ite_none_right_eq_some.mp h
    refine ⟨List.all_eq_true.mp hdigits, ?_⟩
    rw [← Option.some.inj heq, UInt8.toNat_ofNat']
    omega
  · rintro ⟨hdigits, heq⟩
    refine Option.ite_none_right_eq_some.mpr ⟨⟨List.all_eq_true.mpr hdigits, by omega⟩, ?_⟩
    rw [heq, Int.toNat_natCast, UInt8.ofNat_toNat]

theorem getPart_of_scanPart {fin' : ℤ}
    (hscan : scanPart (strIP.drop start) start fin =
      if part.all Char.isDigit then some fin' else none)
    (hsub : substr strIP start (fin' - start) = part) :
    getPart strIP start fin = (takePart part).map (·, fin') := by
  rw [getPart, hscan, takePart]
  by_cases hdigits : part.all Char.isDigit
  · rw [if_pos hdigits, Option.bind_some, hsub]
    by_cases hrange : atoi part < 0 ∨ 255 < atoi part
    · rw [if_pos hrange, if_neg fun h => h.2 hrange]
      rfl
    · rw [if_neg hrange, if_pos ⟨hdigits, hrange⟩]
      rfl
  · rw [if_neg hdigits, if_neg fun h => hdigits h.1]
    rfl

theorem getPart_dot (hdrop : strIP.drop start = part ++ '.' :: rest) (hnot : '.' ∉ part)
    (fin : ℤ) : getPart strIP start fin =
      (takePart part).map (·, ((start + part.length : Nat) : ℤ)) := by
  refine getPart_of_scanPart (hdrop ▸ scanPart_dot hnot start fin) ?_
  have hcount : ((start + part.length : Nat) : ℤ) - start = (part.length : ℤ) := by omega
  rw [hcount, substr, if_neg (by omega), hdrop, Int.toNat_natCast, List.take_left]

/-- Behind the last dot `end` still stands at that dot, and the count is negative. -/
theorem getPart_last (hdrop : strIP.drop start = part) (hnot : '.' ∉ part) (hlt : fin < start) :
    getPart strIP start fin = (takePart part).map (·, fin) := by
  refine getPart_of_scanPart (hdrop ▸ scanPart_last (hdrop ▸ hnot) start fin) ?_
  rw [substr, if_pos (by omega), hdrop]

theorem drop_behind (hdrop : strIP.drop start = part ++ '.' :: rest) :
    strIP.drop (start + part.length + 1) = rest := by
  rw [Nat.add_assoc, ← List.drop_drop, hdrop, ← List.drop_drop, List.drop_left, List.drop_one,
    List.tail_cons]

theorem count_dotted (ha : '.' ∉ a) (hb : '.' ∉ b) (hc : '.' ∉ c) (hd : '.' ∉ d) :
    (dotted a b c d).count '.' = 3 := by
  simp [dotted, List.count_append, List.count_eq_zero.mpr, ha, hb, hc, hd]

theorem getParts_dot (hdrop : strIP.drop start = part ++ '.' :: rest) (hnot : '.' ∉ part)
    (n : Nat) (fin : ℤ) : getParts strIP (n + 1) start fin = (takePart part).bind fun x =>
      (getParts strIP n (start + part.length + 1) ((start + part.length : Nat) : ℤ)).map
        (x :: ·) := by
  have hnext : (((start + part.length : Nat) : ℤ) + 1).toNat = start + part.length + 1 := by omega
  rw [getParts, getPart_dot hdrop hnot, Option.bind_map]
  simp only [Function.comp_def, hnext]

theorem getParts_last (hdrop : strIP.drop start = part) (hnot : '.' ∉ part) (hlt : fin < start) :
    getParts strIP 1 start fin = (takePart part).map (fun x => [x]) := by
  rw [getParts, getPart_last hdrop hnot hlt, Option.bind_map]
  cases takePart part with
  | none => simp only [Option.bind_none, Option.map_none]
  | some x => simp only [Option.bind_some, Option.map_some, Function.comp_apply, getParts]

theorem bind_packParts (a b c d : Option UInt8) :
    (a.bind fun x => (b.bind fun y => (c.bind fun z => (d.map fun w => [w]).map (z :: ·)).map
      (y :: ·)).map (x :: ·)).bind packParts =
      a.bind fun x => b.bind fun y => c.bind fun z => d.map fun w => pack x y z w := by
  cases a <;> cases b <;> cases c <;> cases d <;> rfl

theorem parse_dotted (ha : '.' ∉ a) (hb : '.' ∉ b) (hc : '.' ∉ c) (hd : '.' ∉ d) :
    parse (dotted a b c d) = (takePart a).bind fun x => (takePart b).bind fun y =>
      (takePart c).bind fun z => (takePart d).map fun w => pack x y z w := by
  have h0 : (dotted a b c d).drop 0 = a ++ '.' :: (b ++ '.' :: (c ++ '.' :: d)) := rfl
  have h1 := drop_behind h0
  have h2 := drop_behind h1
  have h3 := drop_behind h2
  rw [parse, if_neg (not_not.mpr (count_dotted ha hb hc hd)), getParts_dot h0 ha,
    getParts_dot h1 hb, getParts_dot h2 hc, getParts_last h3 hd (by omega)]
  exact bind_packParts _ _ _ _

theorem exists_dotted (hcount : text.count '.' = 3) :
    ∃ a b c d, text = dotted a b c d ∧ '.' ∉ a ∧ '.' ∉ b ∧ '.' ∉ c ∧ '.' ∉ d := by
  have hcut (n : Nat) (s : List Char) (h : s.count '.' = n + 1) :
      ∃ part rest, s = part ++ '.' :: rest ∧ '.' ∉ part ∧ rest.count '.' = n := by
    have hmem : '.' ∈ s := List.count_pos_iff.mp (by omega)
    obtain ⟨part, rest, rfl, hnot⟩ := List.eq_append_cons_of_mem hmem
    refine ⟨part, rest, rfl, hnot, ?_⟩
    rw [List.count_append, List.count_eq_zero.mpr hnot, List.count_cons_self] at h
    omega
  obtain ⟨a, s, rfl, ha, hs⟩ := hcut 2 text hcount
  obtain ⟨b, s, rfl, hb, hs⟩ := hcut 1 s hs
  obtain ⟨c, d, rfl, hc, hd⟩ := hcut 0 s hs
  exact ⟨a, b, c, d, rfl, ha, hb, hc, List.count_eq_zero.mp hd⟩

/-- The texts that are taken: four parts of digits, which may be empty and have zeros in front. -/
theorem parse_eq_some_iff (ip : UInt64) : parse text = some ip ↔
    ∃ a b c d x y z w, text = dotted a b c d ∧ Part a x ∧ Part b y ∧ Part c z ∧ Part d w ∧
      ip = pack x y z w := by
  constructor
  · intro h
    by_cases hcount : text.count '.' = 3
    · obtain ⟨a, b, c, d, rfl, ha, hb, hc, hd⟩ := exists_dotted hcount
      rw [parse_dotted ha hb hc hd] at h
      obtain ⟨x, hx, h⟩ := Option.bind_eq_some_iff.mp h
      obtain ⟨y, hy, h⟩ := Option.bind_eq_some_iff.mp h
      obtain ⟨z, hz, h⟩ := Option.bind_eq_some_iff.mp h
      obtain ⟨w, hw, h⟩ := Option.map_eq_some_iff.mp h
      exact ⟨a, b, c, d, x, y, z, w, rfl, takePart_eq_some_iff.mp hx, takePart_eq_some_iff.mp hy,
        takePart_eq_some_iff.mp hz, takePart_eq_some_iff.mp hw, h.symm⟩
    · rw [parse, if_pos hcount] at h
      cases h
  · rintro ⟨a, b, c, d, x, y, z, w, rfl, ha, hb, hc, hd, rfl⟩
    rw [parse_dotted (not_dot_of_digits ha.1) (not_dot_of_digits hb.1) (not_dot_of_digits hc.1)
      (not_dot_of_digits hd.1), takePart_eq_some_iff.mpr ha, takePart_eq_some_iff.mpr hb,
      takePart_eq_some_iff.mpr hc, takePart_eq_some_iff.mpr hd]
    rfl

theorem ofText_of_none {str : Text} (h : parse str.chars = none) :
    EvaIPAddress.ofText str = ⟨false, 0⟩ := by
  rw [EvaIPAddress.ofText, EvaIPAddress.getIntIP, h]
  rfl

theorem ofText_of_some {str : Text} {ip : UInt64} (h : parse str.chars = some ip) :
    EvaIPAddress.ofText str = ⟨decide (ip ≠ 0), ip⟩ := by
  rw [EvaIPAddress.ofText, EvaIPAddress.getIntIP, h]
  by_cases hip : ip = 0
  · subst hip
    rfl
  · simp only [ne_eq, hip, not_false_eq_true, if_true, decide_true]

/-- A text is a valid address exactly when it has four parts of digits, whose octets are not all
zero. -/
theorem ofText_eq_iff (strIP : Text) (ip : UInt64) :
    EvaIPAddress.ofText strIP = ⟨true, ip⟩ ↔ ip ≠ 0 ∧
      ∃ a b c d x y z w, strIP.chars = dotted a b c d ∧ Part a x ∧ Part b y ∧ Part c z ∧
        Part d w ∧ ip = pack x y z w := by
  rw [← parse_eq_some_iff]
  cases hparse : parse strIP.chars with
  | none =>
      rw [ofText_of_none hparse]
      constructor
      · intro h
        cases h
      · rintro ⟨-, h⟩
        cases h
  | some ip' =>
      rw [ofText_of_some hparse, EvaIPAddress.mk.injEq, decide_eq_true_eq, Option.some_inj]
      constructor
      · rintro ⟨hne, rfl⟩
        exact ⟨hne, rfl⟩
      · rintro ⟨hne, rfl⟩
        exact ⟨hne, rfl⟩

/-! ### Writing -/

variable {ip : UInt64} {k m : Nat}

theorem toNat_pack (x y z w : UInt8) : (pack x y z w).toNat =
    ((x.toNat * 256 + y.toNat) * 256 + z.toNat) * 256 + w.toNat := by
  have hx : x.toNat < 256 := x.toNat_lt
  have hy : y.toNat < 256 := y.toNat_lt
  have hz : z.toNat < 256 := z.toNat_lt
  have hw : w.toNat < 256 := w.toNat_lt
  have h8 : z.toNat <<< 8 ||| w.toNat = z.toNat * 256 + w.toNat := by
    rw [← Nat.shiftLeft_add_eq_or_of_lt (by omega), Nat.shiftLeft_eq]
  have h16 : y.toNat <<< 16 ||| (z.toNat * 256 + w.toNat) =
      y.toNat * 65536 + (z.toNat * 256 + w.toNat) := by
    rw [← Nat.shiftLeft_add_eq_or_of_lt (by omega), Nat.shiftLeft_eq]
  have h24 : x.toNat <<< 24 ||| (y.toNat * 65536 + (z.toNat * 256 + w.toNat)) =
      x.toNat * 16777216 + (y.toNat * 65536 + (z.toNat * 256 + w.toNat)) := by
    rw [← Nat.shiftLeft_add_eq_or_of_lt (by omega), Nat.shiftLeft_eq]
  have hcut {n i : Nat} (hn : n < 256) (hi : i ≤ 24) : n <<< i % 2 ^ 64 = n <<< i := by
    rw [Nat.shiftLeft_eq]
    refine Nat.mod_eq_of_lt ?_
    calc n * 2 ^ i ≤ 256 * 2 ^ 24 :=
          Nat.mul_le_mul (Nat.le_of_lt hn) (Nat.pow_le_pow_right (by decide) hi)
      _ < 2 ^ 64 := by decide
  have hor : (pack x y z w).toNat =
      x.toNat <<< 24 ||| (y.toNat <<< 16 ||| (z.toNat <<< 8 ||| w.toNat)) := by
    simp only [pack, UInt64.toNat_or, UInt64.toNat_shiftLeft, UInt8.toNat_toUInt64,
      UInt64.reduceToNat, Nat.reduceMod, Nat.or_assoc]
    rw [hcut hx (by decide), hcut hy (by decide), hcut hz (by decide)]
  rw [hor, h8, h16, h24]
  omega

theorem and_mask (n k : Nat) : n &&& 255 <<< k = (n / 2 ^ k % 256) * 2 ^ k := by
  rw [← Nat.shiftLeft_eq, ← Nat.shiftRight_eq_div_pow]
  apply Nat.eq_of_testBit_eq
  intro i
  rw [Nat.testBit_and, Nat.testBit_shiftLeft, Nat.testBit_shiftLeft,
    show (255 : Nat) = 2 ^ 8 - 1 from rfl, show (256 : Nat) = 2 ^ 8 from rfl,
    Nat.testBit_two_pow_sub_one, Nat.testBit_mod_two_pow, Nat.testBit_shiftRight]
  by_cases hi : k ≤ i
  · simp [hi, Bool.and_comm]
  · simp [hi]

theorem octet_eq {mask : UInt64} (hmask : mask.toNat = 255 <<< k) :
    octet ip mask k =
      (((ip.toNat / 2 ^ k % 256 * 2 ^ k : Nat) : ℤ).bmod (2 ^ 32)) / (2 ^ k : Nat) := by
  unfold octet
  rw [Int.shiftRight_eq_div_pow, UInt64.toNat_and, hmask, and_mask]

theorem octet_low {mask : UInt64} (hmask : mask.toNat = 255 <<< k) (hk : k ≤ 16) :
    octet ip mask k = ((ip.toNat / 2 ^ k % 256 : Nat) : ℤ) := by
  have hpow : 2 ^ k ≤ 2 ^ 16 := Nat.pow_le_pow_right (by decide) hk
  have hlt : ip.toNat / 2 ^ k % 256 * 2 ^ k < 2 ^ 24 := by
    calc ip.toNat / 2 ^ k % 256 * 2 ^ k < 256 * 2 ^ k :=
          Nat.mul_lt_mul_of_pos_right (Nat.mod_lt _ (by decide)) (Nat.two_pow_pos k)
      _ ≤ 256 * 2 ^ 16 := Nat.mul_le_mul_left 256 hpow
  rw [octet_eq hmask, Int.bmod_eq_of_le (by omega) (by omega), ← Int.natCast_ediv,
    Nat.mul_div_cancel _ (Nat.two_pow_pos k)]

/-- The first octet is a signed one. -/
theorem octet_high : octet ip 0xFF000000 24 = ((ip.toNat / 2 ^ 24 % 256 : Nat) : ℤ).bmod 256 := by
  have hlt : ip.toNat / 2 ^ 24 % 256 < 256 := Nat.mod_lt _ (by decide)
  rw [octet_eq (by decide)]
  generalize ip.toNat / 2 ^ 24 % 256 = o at hlt
  simp only [Int.bmod_def]
  split <;> split <;> omega

theorem decimal_natCast (m : Nat) : decimal m = Nat.toDigits 10 m := by
  rw [decimal, if_neg (by omega), Int.natAbs_natCast]

theorem part_toDigits (hm : m < 256) : Part (Nat.toDigits 10 m) (UInt8.ofNat m) := by
  refine ⟨fun c hc => Nat.isDigit_of_mem_toDigits (by decide) (by decide) hc, ?_⟩
  have hnat : (UInt8.ofNat m).toNat = m := by
    rw [UInt8.toNat_ofNat']
    exact Nat.mod_eq_of_lt hm
  have hmin : min m (2 ^ 63 - 1) = m := Nat.min_eq_left (by omega)
  unfold atoi
  rw [Nat.ofDigitChars_ten_toDigits, hmin, hnat]
  exact Int.bmod_eq_of_le (by omega) (by omega)

theorem EvaIPAddress.text_eq (address : EvaIPAddress) : address.text =
    dotted (decimal (((address.mIP.toNat / 2 ^ 24 % 256 : Nat) : ℤ).bmod 256))
      (Nat.toDigits 10 (address.mIP.toNat / 2 ^ 16 % 256))
      (Nat.toDigits 10 (address.mIP.toNat / 2 ^ 8 % 256))
      (Nat.toDigits 10 (address.mIP.toNat % 256)) := by
  rw [EvaIPAddress.text, octet_high, octet_low (k := 16) (by decide) (by decide),
    octet_low (k := 8) (by decide) (by decide), octet_low (k := 0) (by decide) (by decide),
    decimal_natCast, decimal_natCast, decimal_natCast, Nat.pow_zero, Nat.div_one]

theorem pack_octets {n : Nat} (hn : n < 2 ^ 32) :
    pack (UInt8.ofNat (n / 2 ^ 24 % 256)) (UInt8.ofNat (n / 2 ^ 16 % 256))
      (UInt8.ofNat (n / 2 ^ 8 % 256)) (UInt8.ofNat (n % 256)) = UInt64.ofNat n := by
  have hmod (v : Nat) : v % 256 % 2 ^ 8 = v % 256 := Nat.mod_mod_of_dvd v (by decide)
  apply UInt64.toNat_inj.mp
  simp only [toNat_pack, UInt8.toNat_ofNat', UInt64.toNat_ofNat', hmod]
  omega

/-- Only the low 32 bits are written, and from 128.0.0.0 on with a sign in front. -/
theorem parse_text (address : EvaIPAddress) : parse address.text =
    if address.mIP.toNat % 2 ^ 32 < 2 ^ 31 then some (UInt64.ofNat (address.mIP.toNat % 2 ^ 32))
    else none := by
  set n := address.mIP.toNat % 2 ^ 32 with hn
  have hlt : n < 2 ^ 32 := Nat.mod_lt _ (by decide)
  have h0 : address.mIP.toNat % 256 = n % 256 := by omega
  have h8 : address.mIP.toNat / 2 ^ 8 % 256 = n / 2 ^ 8 % 256 := by omega
  have h16 : address.mIP.toNat / 2 ^ 16 % 256 = n / 2 ^ 16 % 256 := by omega
  have h24 : address.mIP.toNat / 2 ^ 24 % 256 = n / 2 ^ 24 % 256 := by omega
  have hpart {v : Nat} : Part (Nat.toDigits 10 (v % 256)) (UInt8.ofNat (v % 256)) :=
    part_toDigits (Nat.mod_lt v (by decide))
  rw [EvaIPAddress.text_eq, h0, h8, h16, h24]
  by_cases hhigh : n < 2 ^ 31
  · have hfirst : (((n / 2 ^ 24 % 256 : Nat) : ℤ)).bmod 256 = (n / 2 ^ 24 % 256 : Nat) :=
      Int.bmod_eq_of_le (by omega) (by omega)
    rw [if_pos hhigh, hfirst, decimal_natCast]
    exact (parse_eq_some_iff _).mpr ⟨_, _, _, _, _, _, _, _, rfl, hpart, hpart, hpart, hpart,
      (pack_octets hlt).symm⟩
  · have hfirst : (((n / 2 ^ 24 % 256 : Nat) : ℤ)).bmod 256 < 0 := by
      rw [Int.bmod_def]
      split <;> omega
    rw [if_neg hhigh, decimal, if_pos hfirst]
    have hdot {v : Nat} : '.' ∉ Nat.toDigits 10 (v % 256) := not_dot_of_digits hpart.1
    have hsign : '.' ∉ '-' :: Nat.toDigits 10
        (((n / 2 ^ 24 % 256 : Nat) : ℤ).bmod 256).natAbs := by
      intro hmem
      rcases List.mem_cons.mp hmem with h | h
      · exact absurd h (by decide)
      · exact absurd (Nat.isDigit_of_mem_toDigits (by decide) (by decide) h) (by decide)
    have hnone : takePart ('-' :: Nat.toDigits 10
        (((n / 2 ^ 24 % 256 : Nat) : ℤ).bmod 256).natAbs) = none :=
      if_neg fun h => absurd (List.all_eq_true.mp h.1 '-' List.mem_cons_self) (by decide)
    rw [parse_dotted hsign hdot hdot hdot, hnone]
    rfl

theorem length_toDigits_le_three {m : Nat} (hm : m < 256) : (Nat.toDigits 10 m).length ≤ 3 :=
  (Nat.length_toDigits_le_iff (by decide) (by decide)).mpr (by omega)

theorem length_toDigits_eq_three_iff {m : Nat} (hm : m < 256) :
    (Nat.toDigits 10 m).length = 3 ↔ 100 ≤ m := by
  have hle := length_toDigits_le_three hm
  have htwo : (Nat.toDigits 10 m).length ≤ 2 ↔ m < 10 ^ 2 :=
    Nat.length_toDigits_le_iff (by decide) (by decide)
  omega

/-- The text has place in `strIP[16]`, with its terminator, unless the first octet is written with
a sign and each of the four has three digits. -/
theorem length_toString_lt_iff (address : EvaIPAddress) : address.text.length < 16 ↔
    ¬ (128 ≤ address.mIP.toNat / 2 ^ 24 % 256 ∧ address.mIP.toNat / 2 ^ 24 % 256 ≤ 156 ∧
      100 ≤ address.mIP.toNat / 2 ^ 16 % 256 ∧ 100 ≤ address.mIP.toNat / 2 ^ 8 % 256 ∧
      100 ≤ address.mIP.toNat % 256) := by
  have hlt (v : Nat) : v % 256 < 256 := Nat.mod_lt v (by decide)
  have hle (v : Nat) := length_toDigits_le_three (hlt v)
  have hiff (v : Nat) := length_toDigits_eq_three_iff (hlt v)
  have hb := hle (address.mIP.toNat / 2 ^ 16)
  have hc := hle (address.mIP.toNat / 2 ^ 8)
  have hd := hle address.mIP.toNat
  rw [EvaIPAddress.text_eq, ← hiff (address.mIP.toNat / 2 ^ 16),
    ← hiff (address.mIP.toNat / 2 ^ 8), ← hiff address.mIP.toNat]
  simp only [dotted, List.length_append, List.length_cons]
  have ho := hlt (address.mIP.toNat / 2 ^ 24)
  generalize address.mIP.toNat / 2 ^ 24 % 256 = o at ho
  rw [decimal]
  by_cases hsigned : o < 128
  · have hself : ((o : ℤ)).bmod 256 = o := Int.bmod_eq_of_le (by omega) (by omega)
    have ha := length_toDigits_le_three ho
    rw [hself, if_neg (by omega), Int.natAbs_natCast]
    omega
  · have hminus : ((o : ℤ)).bmod 256 = o - 256 := by
      rw [Int.bmod_def]
      split <;> omega
    have habs : ((o : ℤ) - 256).natAbs = 256 - o := by omega
    have ha := length_toDigits_le_three (m := 256 - o) (by omega)
    have hthree := length_toDigits_eq_three_iff (m := 256 - o) (by omega)
    rw [hminus, if_pos (by omega), habs, List.length_cons]
    omega

theorem ofText_text (address : EvaIPAddress) (hlength : address.text.length < 2147483648) :
    EvaIPAddress.ofText ⟨address.text, hlength⟩ =
      if 0 < address.mIP.toNat % 2 ^ 32 ∧ address.mIP.toNat % 2 ^ 32 < 2 ^ 31 then
        ⟨true, UInt64.ofNat (address.mIP.toNat % 2 ^ 32)⟩
      else ⟨false, 0⟩ := by
  have hparse := parse_text address
  set n := address.mIP.toNat % 2 ^ 32 with hn
  have hlt : n < 2 ^ 32 := Nat.mod_lt _ (by decide)
  by_cases hhigh : n < 2 ^ 31
  · rw [if_pos hhigh] at hparse
    rw [@ofText_of_some ⟨address.text, hlength⟩ (UInt64.ofNat n) hparse]
    by_cases hzero : 0 < n
    · have hne : UInt64.ofNat n ≠ 0 := by
        intro h
        have hnat := congrArg UInt64.toNat h
        rw [UInt64.toNat_ofNat', UInt64.toNat_zero] at hnat
        omega
      rw [if_pos ⟨hzero, hhigh⟩, decide_eq_true hne]
    · rw [if_neg fun h => hzero h.1, Nat.eq_zero_of_not_pos hzero]
      rfl
  · rw [if_neg hhigh] at hparse
    rw [@ofText_of_none ⟨address.text, hlength⟩ hparse, if_neg fun h => hhigh h.2]

/-- An address that has place in `strIP` is read back from its text as itself, cut to 32 bits, below
128.0.0.0; from there on, and for 0.0.0.0, the text is not a valid address. -/
theorem ofText_toString (address : EvaIPAddress) :
    address.toString.map EvaIPAddress.ofText =
      if address.text.length < 16 then
        some (if 0 < address.mIP.toNat % 2 ^ 32 ∧ address.mIP.toNat % 2 ^ 32 < 2 ^ 31 then
          ⟨true, UInt64.ofNat (address.mIP.toNat % 2 ^ 32)⟩
        else ⟨false, 0⟩)
      else none := by
  by_cases hlength : address.text.length < 16
  · rw [EvaIPAddress.toString_of_lt hlength, if_pos hlength, Option.map_some, ofText_text]
  · rw [EvaIPAddress.toString_of_not_lt hlength, if_neg hlength, Option.map_none]

end CodeSlices.Qqwry
