import CodeSlices.Fat.Image

/-!
# Long names

`parse_long_name` of `lua/fat.lua`, which goes back from a short entry, and the entries that VFAT
stores for a long name. Indices into a buffer begin at 1.
-/

namespace CodeSlices.Fat

def LRFIRST : Nat := 0x40

def testBit (num bit : Nat) : Bool := 1 <<< bit == num &&& (1 <<< bit)

structure Section where
  start : Nat
  len : Nat

def sections : List Section := [⟨1, 10⟩, ⟨14, 12⟩, ⟨28, 4⟩]

/-- The characters of a section, for the passes over it that are left. -/
def unitLoop (buffer : Buffer) : Nat → Nat → List UInt8
  | 0, _ => []
  | passes + 1, n =>
      let item :=
        match stringByte buffer n, stringByte buffer (n + 1) with
        | some b1, some b2 => if b2 = 0 ∧ b1 > 0 then [b1] else []
        | _, _ => []
      item ++ unitLoop buffer passes (n + 2)

def sectionItems (buffer : Buffer) (i : Nat) : List UInt8 :=
  sections.flatMap fun s => unitLoop buffer (s.len / 2) (i + s.start)

/-- The characters of the entries from `i` back, for the entries that are left before it. -/
def entryLoop (buffer : Buffer) : Nat → Nat → Except LuaError (List UInt8)
  | 0, _ => .ok []
  | entries + 1, i =>
      match stringByte buffer i with
      | some attr =>
          if testBit attr.toNat 6 then .ok (sectionItems buffer i)
          else do
            let items ← entryLoop buffer entries (i - 32)
            .ok (sectionItems buffer i ++ items)
      | none => .error .bitwiseOnNil

def parseLongName (buffer : Buffer) (idx : Nat) : Except LuaError (List UInt8) :=
  entryLoop buffer ((idx - 1) / 32) (idx - 32)

/-! ### What VFAT stores -/

/-- A name of 1 to 255 ASCII characters. -/
structure LongName where
  chars : List UInt8
  length_pos : 0 < chars.length
  length_le : chars.length ≤ 255
  ascii : ∀ c ∈ chars, 1 ≤ c ∧ c ≤ 127

namespace LongName

/-- The UTF-16 units, low byte first: the characters, a terminator and padding. -/
def unit (name : LongName) (p : Nat) : UInt8 × UInt8 :=
  match name.chars[p]? with
  | some c => (c, 0)
  | none => if p = name.chars.length then (0, 0) else (0xFF, 0xFF)

def unitBytes (units : List (UInt8 × UInt8)) : List UInt8 := units.flatMap fun u => [u.1, u.2]

def numEntries (name : LongName) : Nat := (name.chars.length + 12) / 13

def units (name : LongName) (start n : Nat) : List (UInt8 × UInt8) :=
  (List.range' start n).map name.unit

/-- The number of an entry, counted from 0, as it is stored; the last is marked. -/
def ordinal (name : LongName) (entry : Nat) : UInt8 :=
  UInt8.ofNat (if entry + 1 = name.numEntries then LRFIRST ||| (entry + 1) else entry + 1)

/-- The 32 bytes of an entry: its number, five units, the attributes, the type and the checksum of
the short name, six units, a cluster number that is 0, and two units. -/
def entry (name : LongName) (checksum : UInt8) (entry : Nat) : List UInt8 :=
  [name.ordinal entry] ++ unitBytes (name.units (13 * entry) 5) ++ [0x0F, 0, checksum] ++
    unitBytes (name.units (13 * entry + 5) 6) ++ [0, 0] ++
    unitBytes (name.units (13 * entry + 11) 2)

/-- The entries from a number on, as they are stored: the last first. -/
def entriesFrom (name : LongName) (checksum : UInt8) (first n : Nat) : List UInt8 :=
  (List.range' first n).reverse.flatMap (name.entry checksum)

def entries (name : LongName) (checksum : UInt8) : List UInt8 :=
  name.entriesFrom checksum 0 name.numEntries

/-- The units that the reader takes for characters. -/
def kept (units : List (UInt8 × UInt8)) : List UInt8 :=
  units.flatMap fun u => if u.2 = 0 ∧ u.1 > 0 then [u.1] else []

end LongName

open LongName

variable {name : LongName} {checksum : UInt8}

theorem stringByte_ofList (pre : List UInt8) (b : UInt8) (rest : List UInt8) :
    stringByte (Buffer.ofList (pre ++ b :: rest)) (pre.length + 1) = some b := by
  have hinside : 1 ≤ pre.length + 1 ∧ pre.length + 1 ≤ (pre ++ b :: rest).length := by
    simp
  rw [stringByte, Buffer.ofList, if_pos hinside]
  simp

/-- A section that holds some units gives those that are characters. -/
theorem unitLoop_eq (pre rest : List UInt8) (units : List (UInt8 × UInt8)) :
    unitLoop (Buffer.ofList (pre ++ unitBytes units ++ rest)) units.length (pre.length + 1) =
      kept units := by
  induction units generalizing pre with
  | nil => rfl
  | cons u units ih =>
      have hshift : pre ++ unitBytes (u :: units) ++ rest =
          (pre ++ [u.1, u.2]) ++ unitBytes units ++ rest := by simp [unitBytes]
      have hlow : stringByte (Buffer.ofList (pre ++ unitBytes (u :: units) ++ rest))
          (pre.length + 1) = some u.1 := by
        simpa [unitBytes] using stringByte_ofList pre u.1 (u.2 :: (unitBytes units ++ rest))
      have hhigh : stringByte (Buffer.ofList (pre ++ unitBytes (u :: units) ++ rest))
          (pre.length + 1 + 1) = some u.2 := by
        simpa [unitBytes] using stringByte_ofList (pre ++ [u.1]) u.2 (unitBytes units ++ rest)
      have hrest := ih (pre ++ [u.1, u.2])
      rw [List.length_append] at hrest
      rw [List.length_cons, unitLoop, hlow, hhigh, hshift]
      exact congrArg (_ ++ ·) hrest

theorem length_units (start n : Nat) : (name.units start n).length = n := by
  rw [LongName.units, List.length_map, List.length_range']

theorem length_unitBytes (units : List (UInt8 × UInt8)) :
    (unitBytes units).length = 2 * units.length := by
  induction units with
  | nil => rfl
  | cons u units ih =>
      rw [unitBytes, List.flatMap_cons, List.length_append, ← unitBytes, ih, List.length_cons,
        List.length_cons, List.length_cons, List.length_nil]
      omega

theorem length_entry (j : Nat) : (name.entry checksum j).length = 32 := by
  simp [LongName.entry, length_unitBytes, length_units]

theorem kept_append (left right : List (UInt8 × UInt8)) :
    kept (left ++ right) = kept left ++ kept right := List.flatMap_append

theorem units_append (start m n : Nat) :
    name.units start m ++ name.units (start + m) n = name.units start (m + n) := by
  rw [LongName.units, LongName.units, LongName.units, ← List.map_append,
    List.range'_append_1]

variable (name checksum) in
/-- The three sections of an entry hold 13 units. -/
theorem sectionItems_entry (pre rest : List UInt8) (j : Nat) :
    sectionItems (Buffer.ofList (pre ++ name.entry checksum j ++ rest)) (pre.length + 1) =
      kept (name.units (13 * j) 13) := by
  have hfirst := unitLoop_eq (pre ++ [name.ordinal j]) ([0x0F, 0, checksum] ++
    unitBytes (name.units (13 * j + 5) 6) ++ [0, 0] ++ unitBytes (name.units (13 * j + 11) 2) ++
      rest) (name.units (13 * j) 5)
  have hsecond := unitLoop_eq (pre ++ [name.ordinal j] ++ unitBytes (name.units (13 * j) 5) ++
    [0x0F, 0, checksum]) ([0, 0] ++ unitBytes (name.units (13 * j + 11) 2) ++ rest)
      (name.units (13 * j + 5) 6)
  have hthird := unitLoop_eq (pre ++ [name.ordinal j] ++ unitBytes (name.units (13 * j) 5) ++
    [0x0F, 0, checksum] ++ unitBytes (name.units (13 * j + 5) 6) ++ [0, 0]) rest
      (name.units (13 * j + 11) 2)
  simp only [List.append_assoc, List.length_append, length_unitBytes, length_units,
    List.length_cons, List.length_nil] at hfirst hsecond hthird
  have hunits : kept (name.units (13 * j) 13) = kept (name.units (13 * j) 5) ++
      (kept (name.units (13 * j + 5) 6) ++ kept (name.units (13 * j + 11) 2)) := by
    rw [← kept_append, ← kept_append, units_append (13 * j + 5) 6 2, units_append (13 * j) 5 8]
  rw [hunits, ← hfirst, ← hsecond, ← hthird]
  simp only [sectionItems, sections, List.flatMap_cons, List.flatMap_nil, List.append_nil,
    LongName.entry, List.append_assoc]

theorem numEntries_le : name.numEntries ≤ 20 := by
  have hle := name.length_le
  rw [LongName.numEntries]
  omega

theorem testBit_ordinal {j : Nat} (hj : j < name.numEntries) :
    testBit (name.ordinal j).toNat 6 = decide (j + 1 = name.numEntries) := by
  have hbit : ∀ j < 20, testBit (UInt8.ofNat (LRFIRST ||| (j + 1))).toNat 6 = true ∧
      testBit (UInt8.ofNat (j + 1)).toNat 6 = false := by decide
  obtain ⟨hmarked, hplain⟩ := hbit j (hj.trans_le numEntries_le)
  rw [LongName.ordinal]
  split_ifs with hlast
  · rw [hmarked, decide_eq_true hlast]
  · rw [hplain, decide_eq_false hlast]

theorem entriesFrom_succ (first m : Nat) :
    name.entriesFrom checksum first (m + 1) =
      name.entriesFrom checksum (first + 1) m ++ name.entry checksum first := by
  simp [LongName.entriesFrom, List.range'_succ]

theorem length_entriesFrom (first m : Nat) :
    (name.entriesFrom checksum first m).length = 32 * m := by
  induction m generalizing first with
  | zero => rfl
  | succ m ih =>
      rw [entriesFrom_succ, List.length_append, ih, length_entry]
      ring

variable (name checksum) in
theorem stringByte_entry (pre rest : List UInt8) (j : Nat) :
    stringByte (Buffer.ofList (pre ++ name.entry checksum j ++ rest)) (pre.length + 1) =
      some (name.ordinal j) := by
  rw [LongName.entry]
  simp only [List.append_assoc, List.singleton_append]
  exact stringByte_ofList _ _ _

variable (name checksum) in
/-- From the entry of a number back to the marked one. -/
theorem entryLoop_eq (pre : List UInt8) {m left : Nat} (hleft : m < left) {first : Nat}
    (hlast : first + m + 1 = name.numEntries) (rest : List UInt8) :
    entryLoop (Buffer.ofList (pre ++ name.entriesFrom checksum first (m + 1) ++ rest)) left
        (pre.length + 32 * m + 1) =
      .ok (kept (name.units (13 * first) (13 * (m + 1)))) := by
  induction m generalizing left first rest with
  | zero =>
      obtain ⟨left, rfl⟩ := Nat.exists_eq_add_of_lt hleft
      have hentry : name.entriesFrom checksum first 1 = name.entry checksum first := by
        rw [entriesFrom_succ]
        rfl
      have hmarked : testBit (name.ordinal first).toNat 6 = true := by
        rw [testBit_ordinal (by omega), decide_eq_true (by omega)]
      rw [Nat.zero_add, hentry, Nat.mul_zero, Nat.add_zero, entryLoop, stringByte_entry]
      dsimp only
      rw [if_pos hmarked, sectionItems_entry]
  | succ m ih =>
      obtain ⟨left, rfl⟩ := Nat.exists_eq_add_of_lt hleft
      have hplain : ¬ testBit (name.ordinal first).toNat 6 = true := by
        rw [testBit_ordinal (by omega), decide_eq_true_eq]
        omega
      have hlength : (pre ++ name.entriesFrom checksum (first + 1) (m + 1)).length =
          pre.length + 32 * (m + 1) := by rw [List.length_append, length_entriesFrom]
      have hbyte := stringByte_entry name checksum
        (pre ++ name.entriesFrom checksum (first + 1) (m + 1)) rest first
      have hitems := sectionItems_entry name checksum
        (pre ++ name.entriesFrom checksum (first + 1) (m + 1)) rest first
      rw [hlength] at hbyte hitems
      have hback := @ih (m + 1 + left) (by omega) (first + 1) (by omega)
        (name.entry checksum first ++ rest)
      have hsub : pre.length + 32 * (m + 1) + 1 - 32 = pre.length + 32 * m + 1 := by omega
      have hunits : kept (name.units (13 * first) (13 * (m + 1 + 1))) =
          kept (name.units (13 * first) 13) ++
            kept (name.units (13 * (first + 1)) (13 * (m + 1))) := by
        rw [← kept_append, Nat.mul_succ 13 first, units_append, Nat.mul_succ 13 (m + 1),
          Nat.add_comm 13]
      rw [entriesFrom_succ, ← List.append_assoc, entryLoop, hbyte]
      dsimp only
      rw [if_neg hplain, hitems, hsub, hunits]
      simp only [List.append_assoc] at hback ⊢
      rw [hback]
      rfl

theorem units_chars : name.units 0 name.chars.length = name.chars.map fun c => (c, 0) := by
  refine List.ext_getElem (by rw [length_units, List.length_map]) fun p hp _ => ?_
  rw [length_units] at hp
  simp [LongName.units, LongName.unit, hp]

theorem kept_chars {chars : List UInt8} (hpos : ∀ c ∈ chars, 0 < c) :
    kept (chars.map fun c => (c, 0)) = chars := by
  induction chars with
  | nil => rfl
  | cons c chars ih =>
      obtain ⟨hc, hchars⟩ := List.forall_mem_cons.mp hpos
      rw [List.map_cons, kept, List.flatMap_cons, if_pos ⟨rfl, hc⟩]
      exact congrArg (c :: ·) (ih hchars)

/-- Neither the terminator nor the padding is taken for a character. -/
theorem kept_padding (n : Nat) : kept (name.units name.chars.length n) = [] := by
  refine List.flatMap_eq_nil_iff.mpr fun u hu => ?_
  obtain ⟨p, hp, rfl⟩ := List.mem_map.mp hu
  have hnone : name.chars[p]? = none := List.getElem?_eq_none (List.mem_range'_1.mp hp).1
  rw [LongName.unit, hnone]
  dsimp only
  split_ifs <;> simp_all

/-- The characters of a name are the units that are kept. -/
theorem kept_units : kept (name.units 0 (13 * name.numEntries)) = name.chars := by
  have hle : name.chars.length ≤ 13 * name.numEntries := by
    rw [LongName.numEntries]
    omega
  have hpos : ∀ c ∈ name.chars, 0 < c := fun c hc =>
    UInt8.lt_of_lt_of_le (by decide) (name.ascii c hc).1
  obtain ⟨n, hn⟩ := Nat.exists_eq_add_of_le hle
  rw [hn, ← units_append, kept_append, Nat.zero_add, kept_padding, List.append_nil, units_chars,
    kept_chars hpos]

/-- The long name stored before a short entry is read back, whatever stands before and after. -/
theorem parseLongName_entries (name : LongName) (checksum : UInt8) (pre rest : List UInt8) :
    parseLongName (Buffer.ofList (pre ++ name.entries checksum ++ rest))
      (pre.length + (name.entries checksum).length + 1) = .ok name.chars := by
  have hpos := name.length_pos
  obtain ⟨m, hm⟩ : ∃ m, name.numEntries = m + 1 := Nat.exists_eq_succ_of_ne_zero (by
    rw [LongName.numEntries]
    omega)
  have hloop := entryLoop_eq name checksum pre
    (by omega : m < (pre.length + 32 * (m + 1)) / 32) (by omega : 0 + m + 1 = name.numEntries) rest
  have hidx : pre.length + 32 * (m + 1) + 1 - 32 = pre.length + 32 * m + 1 := by omega
  rw [parseLongName, LongName.entries, length_entriesFrom, hm, hidx, Nat.add_sub_cancel, hloop,
    ← hm, Nat.mul_zero, kept_units]

/-- `configuration.txt`, which is stored in two entries. -/
def configuration : LongName where
  chars := [99, 111, 110, 102, 105, 103, 117, 114, 97, 116, 105, 111, 110, 46, 116, 120, 116]
  length_pos := by decide
  length_le := by decide
  ascii := by simp

theorem parseLongName_configuration : configuration.numEntries = 2 ∧
    parseLongName (Buffer.ofList ([0, 0] ++ configuration.entries 90 ++ [67])) 67 =
      .ok configuration.chars :=
  ⟨rfl, parseLongName_entries configuration 90 [0, 0] [67]⟩

end CodeSlices.Fat
