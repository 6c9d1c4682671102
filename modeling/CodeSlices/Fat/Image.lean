import Mathlib.Tactic.Ring

/-!
# The image and how it is read

`F.read` and `Bytes` of `lua/fat.lua`. The image is an open file with a position; a seek to a
negative offset fails and leaves the position, which `F.read` does not notice. Lua integers have 64
bits and wrap around.
-/

namespace CodeSlices.Fat

inductive LuaError
  | lengthOfNil
  | bitwiseOnNil
  deriving DecidableEq

/-- A Lua string; what `get` gives from `size` on is not part of it. -/
structure Buffer where
  size : Nat
  get : Nat → UInt8

def Buffer.ofList (bytes : List UInt8) : Buffer := ⟨bytes.length, fun i => bytes.getD i 0⟩

/-- Zeros but for the bytes given with their offsets. -/
def Buffer.sparse (size : Nat) (bytes : List (Nat × UInt8)) : Buffer :=
  ⟨size, fun i => (bytes.lookup i).getD 0⟩

def Buffer.slice (buffer : Buffer) (offset n : Nat) : Buffer :=
  ⟨min n (buffer.size - offset), fun i => buffer.get (offset + i)⟩

/-- `string.byte(buffer, idx)` for a positive index. -/
def stringByte (buffer : Buffer) (idx : Nat) : Option UInt8 :=
  if 1 ≤ idx ∧ idx ≤ buffer.size then some (buffer.get (idx - 1)) else none

/-- The loop of `Bytes`, for the passes that are left; no index it reads is outside the buffer. -/
def bytesLoop (buffer : Buffer) : Nat → BitVec 64 → Nat → Nat → BitVec 64
  | 0, num, _, _ => num
  | n + 1, num, shift, offset =>
      let val := BitVec.ofNat 64 (buffer.get (offset - 1)).toNat
      bytesLoop buffer n (num + val <<< shift) (shift + 8) (offset + 1)

def bytes (buffer : Buffer) (offsetBase n : Nat) : BitVec 64 :=
  let offset := offsetBase + 1
  if buffer.size > offset + n then bytesLoop buffer n 0 0 offset else 0

/-- `F.fd`. -/
structure File where
  image : Buffer
  pos : Nat

def File.seek (f : File) (offset : Int) : File :=
  if 0 ≤ offset then { f with pos := offset.toNat } else f

/-- `F.fd:read(size)`, which is `nil` at the end of the file. -/
def File.read (f : File) (size : Nat) : Option Buffer × File :=
  if f.pos < f.image.size then
    let buffer := f.image.slice f.pos size
    (some buffer, { f with pos := f.pos + buffer.size })
  else (none, f)

/-- `F.read`. -/
def read (f : File) (offset : Int) (size : Nat) : Option Buffer × File := (f.seek offset).read size

/-- The number that `n` bytes from an offset on stand for, the least significant first. -/
def littleEndian (buffer : Buffer) (offset : Nat) : Nat → Nat
  | 0 => 0
  | n + 1 => (buffer.get offset).toNat + 256 * littleEndian buffer (offset + 1) n

variable {buffer : Buffer} {f : File}

theorem read_of_lt {offset : Nat} (hlt : offset < f.image.size) (n : Nat) :
    read f offset n = (some (f.image.slice offset n),
      ⟨f.image, offset + (f.image.slice offset n).size⟩) := by
  rw [read, File.seek, if_pos (Int.natCast_nonneg offset)]
  exact if_pos hlt

theorem read_of_le {offset : Nat} (hle : f.image.size ≤ offset) (n : Nat) :
    read f offset n = (none, ⟨f.image, offset⟩) := by
  rw [read, File.seek, if_pos (Int.natCast_nonneg offset)]
  exact if_neg (Nat.not_lt_of_le hle)

theorem littleEndian_lt (buffer : Buffer) (offset n : Nat) :
    littleEndian buffer offset n < 256 ^ n := by
  induction n generalizing offset with
  | zero => exact Nat.one_pos
  | succ n ih =>
      have hbyte := (buffer.get offset).toNat_lt
      have hrest := ih (offset + 1)
      rw [littleEndian, Nat.pow_succ]
      omega

theorem littleEndian_slice (buffer : Buffer) (start size offset n : Nat) :
    littleEndian (buffer.slice start size) offset n = littleEndian buffer (start + offset) n := by
  induction n generalizing offset with
  | zero => rfl
  | succ n ih => rw [littleEndian, littleEndian, ih, Nat.add_assoc]; rfl

/-- A field by its last byte, which is the most significant. -/
theorem littleEndian_succ (buffer : Buffer) (offset n : Nat) :
    littleEndian buffer offset (n + 1) =
      2 ^ (8 * n) * (buffer.get (offset + n)).toNat + littleEndian buffer offset n := by
  induction n generalizing offset with
  | zero => simp [littleEndian]
  | succ n ih =>
      rw [littleEndian, ih, littleEndian, show offset + 1 + n = offset + (n + 1) by omega,
        show 8 * (n + 1) = 8 * n + 8 by omega, Nat.pow_add]
      ring

theorem testBit_littleEndian (buffer : Buffer) (offset n i : Nat) :
    (littleEndian buffer offset (n + 1)).testBit (8 * n + i) =
      (buffer.get (offset + n)).toNat.testBit i := by
  have hlt := littleEndian_lt buffer offset n
  rw [show 256 = 2 ^ 8 from rfl, ← Nat.pow_mul] at hlt
  rw [littleEndian_succ, Nat.testBit_two_pow_mul_add _ hlt, if_neg (by omega),
    Nat.add_sub_cancel_left]

theorem add_mul_two_pow_lt {num byte shift : Nat} (hnum : num < 2 ^ shift) (hbyte : byte < 2 ^ 8) :
    num + byte * 2 ^ shift < 2 ^ (shift + 8) := by
  calc
    num + byte * 2 ^ shift < 2 ^ shift + byte * 2 ^ shift := Nat.add_lt_add_right hnum _
    _ = (byte + 1) * 2 ^ shift := by ring
    _ ≤ 2 ^ 8 * 2 ^ shift := Nat.mul_le_mul_right _ hbyte
    _ = 2 ^ (shift + 8) := by ring

/-- As long as everything fits in 64 bits, the loop adds the rest of the field. -/
theorem toNat_bytesLoop {n shift : Nat} (hshift : shift + 8 * n ≤ 64) {num : BitVec 64}
    (hnum : num.toNat < 2 ^ shift) (offset : Nat) :
    (bytesLoop buffer n num shift (offset + 1)).toNat =
      num.toNat + 2 ^ shift * littleEndian buffer offset n := by
  induction n generalizing num shift offset with
  | zero => simp [bytesLoop, littleEndian]
  | succ n ih =>
      have hbyte := (buffer.get offset).toNat_lt
      have hpow : 2 ^ (shift + 8) ≤ 2 ^ 64 := Nat.pow_le_pow_right (by decide) (by omega)
      have hlt := add_mul_two_pow_lt hnum hbyte
      have hval : (BitVec.ofNat 64 (buffer.get offset).toNat <<< shift).toNat =
          (buffer.get offset).toNat * 2 ^ shift := by
        rw [BitVec.toNat_shiftLeft, BitVec.toNat_ofNat, Nat.shiftLeft_eq,
          Nat.mod_eq_of_lt (by omega : (buffer.get offset).toNat < 2 ^ 64)]
        exact Nat.mod_eq_of_lt (by omega)
      have hsum : (num + BitVec.ofNat 64 (buffer.get offset).toNat <<< shift).toNat =
          num.toNat + (buffer.get offset).toNat * 2 ^ shift := by
        rw [BitVec.toNat_add, hval]
        exact Nat.mod_eq_of_lt (by omega)
      have hloop := ih (by omega) (hsum ▸ hlt) (offset + 1)
      rw [hsum, Nat.pow_add 2 shift 8] at hloop
      rw [littleEndian]
      refine hloop.trans ?_
      ring

/-- A field of at most eight bytes is read if a byte follows it and one more. -/
theorem toNat_bytes {n : Nat} (hn : n ≤ 8) (buffer : Buffer) (offset : Nat) :
    (bytes buffer offset n).toNat =
      if offset + n + 1 < buffer.size then littleEndian buffer offset n else 0 := by
  have hloop : (bytesLoop buffer n 0 0 (offset + 1)).toNat =
      (0 : BitVec 64).toNat + 2 ^ 0 * littleEndian buffer offset n :=
    toNat_bytesLoop (by omega) Nat.one_pos offset
  rw [bytes]
  by_cases hsize : offset + n + 1 < buffer.size
  · rw [if_pos hsize, if_pos (by omega), hloop]
    simp
  · rw [if_neg hsize, if_neg (by omega)]
    rfl

theorem toNat_bytes_lt {n : Nat} (hn : n ≤ 8) (buffer : Buffer) (offset : Nat) :
    (bytes buffer offset n).toNat < 256 ^ n := by
  rw [toNat_bytes hn]
  split_ifs
  · exact littleEndian_lt buffer offset n
  · exact Nat.pow_pos (by decide)

end CodeSlices.Fat
