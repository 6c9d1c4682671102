import Mathlib.Data.Nat.Digits.Defs

/-!
# Little-endian numbers

Numbers as bytes, the least significant first, and back.
-/

namespace CodeSlices.LittleEndian

def value (bytes : List UInt8) : Nat := Nat.ofDigits 256 (bytes.map UInt8.toNat)

/-- The `n` lowest bytes of a number. -/
def encode : Nat → Nat → List UInt8
  | 0, _ => []
  | n + 1, v => UInt8.ofNat v :: encode n (v / 256)

theorem value_cons (byte : UInt8) (bytes : List UInt8) :
    value (byte :: bytes) = byte.toNat + 256 * value bytes := Nat.ofDigits_cons

@[simp]
theorem length_encode (n v : Nat) : (encode n v).length = n := by
  induction n generalizing v with
  | zero => rfl
  | succ n ih => rw [encode, List.length_cons, ih]

theorem value_encode {n v : Nat} (hlt : v < 256 ^ n) : value (encode n v) = v := by
  induction n generalizing v with
  | zero =>
      obtain rfl : v = 0 := Nat.lt_one_iff.mp hlt
      rfl
  | succ n ih =>
      have hdiv : v / 256 < 256 ^ n := Nat.div_lt_of_lt_mul (by rwa [← Nat.pow_succ'])
      rw [encode, value_cons, ih hdiv, UInt8.toNat_ofNat']
      exact Nat.mod_add_div v 256

end CodeSlices.LittleEndian
