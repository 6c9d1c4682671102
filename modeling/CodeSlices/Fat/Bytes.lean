import CodeSlices.Fat.Image
import CodeSlices.Lib.LittleEndian

/-!
# Fields of a string

`Bytes` of `lua/fat.lua` on whatever Lua integers it is given: its offsets may wrap around, and an
index outside the string gives `nil`. The guard wants two more bytes than the field has.
-/

namespace CodeSlices.Fat

/-- A Lua string; its length and the one after it are Lua integers. -/
structure LuaString extends Buffer where
  size_lt : size + 1 < 2 ^ 63

def LuaString.ofList (bytes : List UInt8) (hlt : bytes.length + 1 < 2 ^ 63) : LuaString :=
  ⟨Buffer.ofList bytes, hlt⟩

/-- `string.byte(buffer, idx)`; an index below zero counts from the end. -/
def LuaString.byte (buffer : LuaString) (idx : BitVec 64) : Option UInt8 :=
  if 0 ≤ idx.toInt then stringByte buffer.toBuffer idx.toInt.toNat
  else if 0 ≤ buffer.size + idx.toInt then
    some (buffer.get (buffer.size + idx.toInt).toNat)
  else none

/-- `x << y`, which shifts to the right when `y` is below zero. -/
def luaShift (x y : BitVec 64) : BitVec 64 :=
  if y.toInt < 0 then x >>> (-y.toInt).toNat else x <<< y.toInt.toNat

def LuaString.bytesLoop (buffer : LuaString) :
    Nat → BitVec 64 → BitVec 64 → BitVec 64 → Except LuaError (BitVec 64)
  | 0, num, _, _ => .ok num
  | n + 1, num, shift, offset =>
      match buffer.byte offset with
      | none => .error .bitwiseOnNil
      | some val =>
          buffer.bytesLoop n (num + luaShift (BitVec.ofNat 64 val.toNat) shift) (shift + 8)
            (offset + 1)

def LuaString.bytes (buffer : LuaString) (offsetBase n : BitVec 64) :
    Except LuaError (BitVec 64) :=
  let offset := offsetBase + 1
  if (buffer.size : ℤ) > (offset + n).toInt then buffer.bytesLoop n.toInt.toNat 0 0 offset
  else .ok 0

/-- The field from `offset` on is read as its number, and a field that is not inside as zero. -/
def LuaString.ReadsField (buffer : LuaString) (offset n : BitVec 64) : Prop :=
  if offset.toInt + n.toInt ≤ buffer.size then
    (buffer.bytes offset n).map BitVec.toInt =
      .ok (littleEndian buffer.toBuffer offset.toInt.toNat n.toInt.toNat : ℤ)
  else buffer.bytes offset n = .ok 0

variable {buffer : LuaString} {offset n : Nat}

/-! ### Lua integers -/

theorem toInt_ofNat_of_lt {m : Nat} (hm : m < 2 ^ 63) : (BitVec.ofNat 64 m).toInt = m := by
  rw [BitVec.toInt_ofNat']
  exact Int.bmod_eq_of_le (by omega) (by omega)

theorem ofNat_add_one (m : Nat) : BitVec.ofNat 64 m + 1 = BitVec.ofNat 64 (m + 1) :=
  (BitVec.ofNat_add m 1).symm

theorem ofNat_add_eight (m : Nat) : BitVec.ofNat 64 m + 8 = BitVec.ofNat 64 (m + 8) :=
  (BitVec.ofNat_add m 8).symm

theorem exists_ofNat {x : BitVec 64} (hx : 0 ≤ x.toInt) :
    ∃ m < 2 ^ 63, x = BitVec.ofNat 64 m := by
  refine ⟨x.toInt.toNat, ?_, ?_⟩
  · have hlt := x.toInt_lt
    omega
  · apply BitVec.eq_of_toInt_eq
    rw [toInt_ofNat_of_lt (by have := x.toInt_lt; omega), Int.toNat_of_nonneg hx]

/-- A sum of two that is too large is below zero. -/
theorem toInt_ofNat_neg {m : Nat} (hle : 2 ^ 63 ≤ m) (hlt : m < 2 ^ 64) :
    (BitVec.ofNat 64 m).toInt = (m : ℤ) - 2 ^ 64 := by
  rw [BitVec.toInt_eq_toNat_cond, BitVec.toNat_ofNat, Nat.mod_eq_of_lt hlt, if_neg (by omega)]
  norm_num

theorem luaShift_zero (shift : BitVec 64) : luaShift 0 shift = 0 := by
  unfold luaShift
  split_ifs <;> simp

theorem luaShift_ofNat {byte shift : Nat} (hlt : 2 ^ shift * byte < 2 ^ 64) :
    luaShift (BitVec.ofNat 64 byte) (BitVec.ofNat 64 shift) =
      BitVec.ofNat 64 (2 ^ shift * byte) := by
  rcases Nat.eq_zero_or_pos byte with rfl | hpos
  · exact luaShift_zero _
  · have hshift : shift < 64 := by
      rw [← Nat.pow_lt_pow_iff_right (by decide : 1 < 2)]
      exact Nat.lt_of_le_of_lt (Nat.le_mul_of_pos_right _ hpos) hlt
    rw [luaShift, toInt_ofNat_of_lt (by omega), if_neg (by omega), Int.toNat_natCast]
    apply BitVec.eq_of_toNat_eq
    simp [Nat.shiftLeft_eq, Nat.mul_comm]

/-! ### The bytes -/

theorem LuaString.byte_ofNat (hlt : offset < buffer.size) :
    buffer.byte (BitVec.ofNat 64 (offset + 1)) = some (buffer.get offset) := by
  have hsize := buffer.size_lt
  rw [byte, toInt_ofNat_of_lt (by omega), if_pos (by omega), stringByte, Int.toNat_natCast,
    if_pos (by omega), Nat.add_sub_cancel]

theorem LuaString.byte_eq_none (hle : buffer.size ≤ offset) (hlt : offset + 1 < 2 ^ 63) :
    buffer.byte (BitVec.ofNat 64 (offset + 1)) = none := by
  rw [byte, toInt_ofNat_of_lt hlt, if_pos (by omega), stringByte, Int.toNat_natCast,
    if_neg (by omega)]

theorem LuaString.byte_minInt : buffer.byte (BitVec.ofNat 64 (2 ^ 63)) = none := by
  have hsize := buffer.size_lt
  rw [byte, toInt_ofNat_neg (Nat.le_refl _) (by decide), if_neg (by decide), if_neg (by omega)]

/-- Inside the string the loop adds the rest of the field, as far as 64 bits hold it. -/
theorem LuaString.bytesLoop_eq (num : BitVec 64) (shift : Nat) (hinside : offset + n ≤ buffer.size)
    (hlt : 2 ^ shift * littleEndian buffer.toBuffer offset n < 2 ^ 64) :
    buffer.bytesLoop n num (BitVec.ofNat 64 shift) (BitVec.ofNat 64 (offset + 1)) =
      .ok (num + BitVec.ofNat 64 (2 ^ shift * littleEndian buffer.toBuffer offset n)) := by
  induction n generalizing shift num offset with
  | zero => simp [bytesLoop, littleEndian]
  | succ n ih =>
      have hsum : 2 ^ shift * littleEndian buffer.toBuffer offset (n + 1) =
          2 ^ shift * (buffer.get offset).toNat +
            2 ^ (shift + 8) * littleEndian buffer.toBuffer (offset + 1) n := by
        rw [littleEndian, Nat.pow_add]
        ring
      rw [hsum] at hlt ⊢
      rw [bytesLoop, byte_ofNat (by omega)]
      dsimp only
      rw [luaShift_ofNat (by omega), ofNat_add_one, ofNat_add_eight, ih _ _ (by omega) (by omega),
        BitVec.add_assoc, ← BitVec.ofNat_add]

/-- The loop never gets past the end of the string. -/
theorem LuaString.bytesLoop_outside {num shift : BitVec 64} (hoffset : offset + 1 < 2 ^ 63)
    (houtside : buffer.size < offset + n) (hn : 1 ≤ n) :
    buffer.bytesLoop n num shift (BitVec.ofNat 64 (offset + 1)) = .error .bitwiseOnNil := by
  induction n generalizing num shift offset with
  | zero => omega
  | succ n ih =>
      have hsize := buffer.size_lt
      rw [bytesLoop]
      by_cases hlt : offset < buffer.size
      · rw [byte_ofNat hlt]
        dsimp only
        rw [ofNat_add_one]
        exact ih (by omega) (by omega) (by omega)
      · rw [byte_eq_none (Nat.le_of_not_lt hlt) hoffset]

/-! ### The guard -/

theorem LuaString.bytes_ofNat (buffer : LuaString) (offset n : Nat) :
    buffer.bytes (BitVec.ofNat 64 offset) (BitVec.ofNat 64 n) =
      if (buffer.size : ℤ) > (BitVec.ofNat 64 (offset + 1 + n)).toInt then
        buffer.bytesLoop (BitVec.ofNat 64 n).toInt.toNat 0 0 (BitVec.ofNat 64 (offset + 1))
      else .ok 0 := by
  rw [BitVec.ofNat_add (offset + 1), ← ofNat_add_one]
  rfl

theorem LuaString.bytes_of_lt (hlt : offset + n + 1 < buffer.size) :
    buffer.bytes (BitVec.ofNat 64 offset) (BitVec.ofNat 64 n) =
      buffer.bytesLoop n 0 0 (BitVec.ofNat 64 (offset + 1)) := by
  have hsize := buffer.size_lt
  rw [bytes_ofNat, toInt_ofNat_of_lt (by omega), if_pos (by omega), toInt_ofNat_of_lt (by omega),
    Int.toNat_natCast]

theorem LuaString.bytes_of_le (hle : buffer.size ≤ offset + n + 1) (hlt : offset + n + 1 < 2 ^ 63) :
    buffer.bytes (BitVec.ofNat 64 offset) (BitVec.ofNat 64 n) = .ok 0 := by
  rw [bytes_ofNat, toInt_ofNat_of_lt (by omega), if_neg (by omega)]

/-- Where the sum of the guard wraps around, the guard is passed. -/
theorem LuaString.bytes_of_wrap (hoffset : offset < 2 ^ 63) (hpos : 1 ≤ n) (hn : n < 2 ^ 63)
    (hwrap : 2 ^ 63 ≤ offset + n + 1) :
    buffer.bytes (BitVec.ofNat 64 offset) (BitVec.ofNat 64 n) = .error .bitwiseOnNil := by
  have hsize := buffer.size_lt
  have hsum := toInt_ofNat_neg (m := offset + 1 + n) (by omega) (by omega)
  rw [bytes_ofNat, hsum, if_pos (by omega), toInt_ofNat_of_lt hn, Int.toNat_natCast]
  by_cases hlast : offset + 1 = 2 ^ 63
  · obtain ⟨n, rfl⟩ : ∃ m, n = m + 1 := ⟨n - 1, by omega⟩
    rw [hlast, bytesLoop, byte_minInt]
  · exact bytesLoop_outside (by omega) (by omega) (by omega)

/-! ### What is read -/

theorem LuaString.bytes_eq_littleEndian (hlt : offset + n + 1 < buffer.size)
    (hvalue : littleEndian buffer.toBuffer offset n < 2 ^ 64) :
    buffer.bytes (BitVec.ofNat 64 offset) (BitVec.ofNat 64 n) =
      .ok (BitVec.ofNat 64 (littleEndian buffer.toBuffer offset n)) := by
  have hloop := buffer.bytesLoop_eq 0 0 (Nat.le_of_lt (Nat.lt_of_succ_lt hlt))
    (by rwa [pow_zero, Nat.one_mul])
  simp only [pow_zero, Nat.one_mul, BitVec.ofNat_eq_ofNat, BitVec.zero_add] at hloop
  exact (bytes_of_lt hlt).trans hloop

/-- Up to two bytes before the end a field is read if its number is a Lua integer. -/
theorem LuaString.map_bytes_iff (hlt : offset + n + 1 < buffer.size) :
    (buffer.bytes (BitVec.ofNat 64 offset) (BitVec.ofNat 64 n)).map BitVec.toInt =
        .ok (littleEndian buffer.toBuffer offset n : ℤ) ↔
      littleEndian buffer.toBuffer offset n < 2 ^ 63 := by
  constructor
  · intro hread
    rcases hbytes : buffer.bytes (BitVec.ofNat 64 offset) (BitVec.ofNat 64 n) with e | num
    · rw [hbytes] at hread
      cases hread
    · rw [hbytes] at hread
      have hnum := Except.ok.inj hread
      have hbound := num.toInt_lt
      omega
  · intro hvalue
    rw [bytes_eq_littleEndian hlt (by omega), Except.map, toInt_ofNat_of_lt hvalue]

/-- For fields of at most eight bytes and offsets that do not wrap around, `bytes` is `Bytes`. -/
theorem LuaString.bytes_eq_ok (hn : n ≤ 8) (hlt : offset + n + 1 < 2 ^ 63) :
    buffer.bytes (BitVec.ofNat 64 offset) (BitVec.ofNat 64 n) =
      .ok (Fat.bytes buffer.toBuffer offset n) := by
  have hnum := toNat_bytes hn buffer.toBuffer offset
  by_cases hguard : offset + n + 1 < buffer.size
  · have hvalue : littleEndian buffer.toBuffer offset n < 256 ^ 8 :=
      Nat.lt_of_lt_of_le (littleEndian_lt _ _ _) (Nat.pow_le_pow_right (by decide) hn)
    rw [if_pos hguard] at hnum
    rw [bytes_eq_littleEndian hguard hvalue, ← hnum, BitVec.ofNat_toNat, BitVec.setWidth_eq]
  · rw [if_neg hguard] at hnum
    rw [bytes_of_le (Nat.le_of_not_lt hguard) hlt, BitVec.eq_of_toNat_eq (y := 0) hnum]

theorem littleEndian_ofList (pre field rest : List UInt8) :
    littleEndian (Buffer.ofList (pre ++ (field ++ rest))) pre.length field.length =
      LittleEndian.value field := by
  induction field generalizing pre with
  | nil => rfl
  | cons byte field ih =>
      have hrest := ih (pre ++ [byte])
      rw [List.length_append, List.append_assoc] at hrest
      rw [LittleEndian.value_cons, ← hrest, List.length_cons, littleEndian]
      simp [Buffer.ofList]

/-- A stored number is read back where two more bytes follow it. -/
theorem LuaString.bytes_encode (pre : List UInt8) {rest : List UInt8} {value : Nat}
    (hvalue : value < 256 ^ n) (hint : value < 2 ^ 63) (hrest : 2 ≤ rest.length)
    (hsize : (pre ++ (LittleEndian.encode n value ++ rest)).length + 1 < 2 ^ 63) :
    (LuaString.ofList (pre ++ (LittleEndian.encode n value ++ rest)) hsize).bytes
      (BitVec.ofNat 64 pre.length) (BitVec.ofNat 64 n) = .ok (BitVec.ofNat 64 value) := by
  have hfield := littleEndian_ofList pre (LittleEndian.encode n value) rest
  rw [LittleEndian.length_encode, LittleEndian.value_encode hvalue] at hfield
  rw [bytes_eq_littleEndian]
  · exact congrArg (fun m => Except.ok (BitVec.ofNat 64 m)) hfield
  · simp [LuaString.ofList, Buffer.ofList]
    omega
  · rw [LuaString.ofList, hfield]
    omega

/-- A field is read up to two bytes before the end if its number is a Lua integer, and later if it
is zero; a field that is not inside is read as zero unless the sum of the guard wraps around. -/
theorem LuaString.readsField_iff (buffer : LuaString) (offset n : BitVec 64)
    (hoffset : 0 ≤ offset.toInt) (hn : 1 ≤ n.toInt) :
    buffer.ReadsField offset n ↔
      if offset.toInt + n.toInt ≤ buffer.size then
        offset.toInt + n.toInt + 1 < buffer.size ∧
            littleEndian buffer.toBuffer offset.toInt.toNat n.toInt.toNat < 2 ^ 63 ∨
          littleEndian buffer.toBuffer offset.toInt.toNat n.toInt.toNat = 0
      else offset.toInt + n.toInt + 1 < 2 ^ 63 := by
  have hsize := buffer.size_lt
  obtain ⟨offset, hlast, rfl⟩ := exists_ofNat hoffset
  obtain ⟨n, hlt, rfl⟩ := exists_ofNat (Int.le_trans Int.one_nonneg hn)
  rw [ReadsField, toInt_ofNat_of_lt hlast]
  rw [toInt_ofNat_of_lt hlt] at hn ⊢
  rw [Int.toNat_natCast, Int.toNat_natCast]
  by_cases hinside : (offset : ℤ) + n ≤ buffer.size
  · rw [if_pos hinside, if_pos hinside]
    by_cases hguard : offset + n + 1 < buffer.size
    · rw [map_bytes_iff hguard]
      omega
    · have hread : (Except.ok 0 : Except LuaError (BitVec 64)).map BitVec.toInt = .ok 0 := rfl
      rw [bytes_of_le (Nat.le_of_not_lt hguard) (by omega), hread, Except.ok.injEq]
      omega
  · rw [if_neg hinside, if_neg hinside]
    by_cases hwrap : offset + n + 1 < 2 ^ 63
    · exact iff_of_true (bytes_of_le (by omega) hwrap) (by omega)
    · rw [bytes_of_wrap hlast (by omega) hlt (by omega)]
      exact iff_of_false nofun (by omega)

theorem lastEntry_read :
    (LuaString.ofList [0xf8, 0xff, 0xff, 0xff, 0, 0] (by decide)).ReadsField 2 2 :=
  (LuaString.readsField_iff _ 2 2 (by decide) (by decide)).mpr (by decide)

/-- The last entry of a FAT of two is read as zero. -/
theorem lastEntry_lost : ¬ ∀ (buffer : LuaString) (offset n : BitVec 64), 0 ≤ offset.toInt →
    1 ≤ n.toInt → buffer.ReadsField offset n := by
  intro hreads
  have hread := hreads (LuaString.ofList [0xf8, 0xff, 0xff, 0xff] (by decide)) 2 2 (by decide)
    (by decide)
  unfold LuaString.ReadsField at hread
  exact absurd hread (by decide)

end CodeSlices.Fat
