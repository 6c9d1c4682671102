import CodeSlices.Qqwry.Seeker

/-!
# Reading inside the file

What the reads of the seeker give when the bytes they ask for are in the file. What earlier reads
left in the members does not matter then.
-/

namespace CodeSlices.Qqwry

variable {data str tail : List UInt8} {first last offset : UInt32} {pos n : Nat}
  {flag c : UInt8} {place : Option Nat}

def load3 (data : List UInt8) (pos : Nat) : UInt32 :=
  UInt32.ofNat (LittleEndian.value ((data.drop pos).take 3))

def load4 (data : List UInt8) (pos : Nat) : UInt32 :=
  UInt32.ofNat (LittleEndian.value ((data.drop pos).take 4))

/-- The seeker of a file and its index area, with the stream closed or at a place. -/
structure Stands (data : List UInt8) (first last : UInt32) (place : Option Nat)
    (s : EvaIPSeeker) : Prop where
  disk : s.disk = some data
  firstIndexOffset : s.firstIndexOffset = first
  lastIndexOffset : s.lastIndexOffset = last
  closed : place = none → s.ipFile.isOpen = false
  standing : ∀ pos, place = some pos → s.ipFile = .openAt data pos

/-! ### Words -/

theorem or_shiftLeft_eq_add {a n : Nat} (ha : a < 2 ^ n) (v : Nat) :
    a ||| v <<< n = a + v * 2 ^ n := by
  rw [Nat.or_comm, ← Nat.shiftLeft_add_eq_or_of_lt ha, Nat.shiftLeft_eq, Nat.add_comm]

theorem or_bytes_three {a b : Nat} (ha : a < 256) (hb : b < 256) (c : Nat) :
    a ||| b <<< 8 ||| c <<< 16 = a + b * 2 ^ 8 + c * 2 ^ 16 := by
  have htwo : a ||| b <<< 8 = a + b * 2 ^ 8 := or_shiftLeft_eq_add (by omega) b
  rw [htwo, or_shiftLeft_eq_add (by omega)]

theorem exists_of_length_three {bytes : List UInt8} (h : bytes.length = 3) :
    ∃ a b c, bytes = [a, b, c] := by
  match bytes, h with
  | [a, b, c], _ => exact ⟨a, b, c, rfl⟩

theorem exists_of_length_four {bytes : List UInt8} (h : bytes.length = 4) :
    ∃ a b c d, bytes = [a, b, c, d] := by
  match bytes, h with
  | [a, b, c, d], _ => exact ⟨a, b, c, d, rfl⟩

theorem value_four (a b c d : UInt8) : LittleEndian.value [a, b, c, d] =
    a.toNat + 256 * (b.toNat + 256 * (c.toNat + 256 * d.toNat)) := by
  simp only [LittleEndian.value_cons]
  rfl

theorem value_three (a b c : UInt8) : LittleEndian.value [a, b, c] =
    a.toNat + 256 * (b.toNat + 256 * c.toNat) := by
  simp only [LittleEndian.value_cons]
  rfl

theorem readInt3_fill (old : Fin 3 → UInt8) {bytes : List UInt8} (h : bytes.length = 3) :
    readInt3 (fill old bytes) = UInt32.ofNat (LittleEndian.value bytes) := by
  obtain ⟨a, b, c, rfl⟩ := exists_of_length_three h
  have ha : a.toNat < 256 := a.toNat_lt
  have hb : b.toNat < 256 := b.toNat_lt
  have hc : c.toNat < 256 := c.toNat_lt
  apply UInt32.toNat_inj.mp
  change (a.toUInt32 ||| b.toUInt32 <<< 8 ||| c.toUInt32 <<< 16).toNat = _
  have h8 : b.toNat <<< 8 % 2 ^ 32 = b.toNat <<< 8 := by
    rw [Nat.shiftLeft_eq]
    omega
  have h16 : c.toNat <<< 16 % 2 ^ 32 = c.toNat <<< 16 := by
    rw [Nat.shiftLeft_eq]
    omega
  simp only [UInt32.toNat_or, UInt32.toNat_shiftLeft, UInt8.toNat_toUInt32, UInt32.reduceToNat,
    Nat.reduceMod, h8, h16, UInt32.toNat_ofNat', value_three]
  rw [or_bytes_three ha hb]
  omega

theorem readInt4_fill (old : Fin 4 → UInt8) {bytes : List UInt8} (h : bytes.length = 4) :
    readInt4 (fill old bytes) = UInt32.ofNat (LittleEndian.value bytes) := by
  obtain ⟨a, b, c, d, rfl⟩ := exists_of_length_four h
  have ha : a.toNat < 256 := a.toNat_lt
  have hb : b.toNat < 256 := b.toNat_lt
  have hc : c.toNat < 256 := c.toNat_lt
  have hd : d.toNat < 256 := d.toNat_lt
  apply UInt32.toNat_inj.mp
  change (a.toUInt32 ||| b.toUInt32 <<< 8 ||| c.toUInt32 <<< 16 ||| d.toUInt32 <<< 24).toNat = _
  have h8 : b.toNat <<< 8 % 2 ^ 32 = b.toNat <<< 8 := by
    rw [Nat.shiftLeft_eq]
    omega
  have h16 : c.toNat <<< 16 % 2 ^ 32 = c.toNat <<< 16 := by
    rw [Nat.shiftLeft_eq]
    omega
  have h24 : d.toNat <<< 24 % 2 ^ 32 = d.toNat <<< 24 := by
    rw [Nat.shiftLeft_eq]
    omega
  simp only [UInt32.toNat_or, UInt32.toNat_shiftLeft, UInt8.toNat_toUInt32, UInt32.reduceToNat,
    Nat.reduceMod, h8, h16, h24, UInt32.toNat_ofNat', value_four]
  rw [or_bytes_three ha hb, or_shiftLeft_eq_add (by omega)]
  omega

theorem length_take_drop (h : pos + n ≤ data.length) : ((data.drop pos).take n).length = n := by
  rw [List.length_take, List.length_drop]
  omega

/-! ### Single operations -/

theorem Stands.update {s s' : EvaIPSeeker} (h : Stands data first last place s) (pos : Nat)
    (hdisk : s'.disk = s.disk) (hfirst : s'.firstIndexOffset = s.firstIndexOffset)
    (hlast : s'.lastIndexOffset = s.lastIndexOffset) (hfile : s'.ipFile = .openAt data pos) :
    Stands data first last (some pos) s' where
  disk := hdisk.trans h.disk
  firstIndexOffset := hfirst.trans h.firstIndexOffset
  lastIndexOffset := hlast.trans h.lastIndexOffset
  closed := fun h => nomatch h
  standing := by
    rintro _ ⟨⟩
    exact hfile

theorem openFile_does : Does (fun s => ∃ place, Stands data first last place s) openFile ()
    (fun s => ∃ pos, Stands data first last (some pos) s) := by
  refine Does.modify ?_
  rintro s ⟨place, h⟩
  cases place with
  | none =>
      refine ⟨0, ?_⟩
      have hclosed := h.closed rfl
      rw [hclosed, if_neg Bool.false_ne_true]
      refine h.update 0 rfl rfl rfl ?_
      rw [h.disk, IStream.openFile_of_closed hclosed]
  | some pos =>
      refine ⟨pos, ?_⟩
      have hopen : s.ipFile.isOpen = true := by
        rw [h.standing pos rfl]
        rfl
      rw [if_pos hopen]
      exact h

theorem closeFile_does : Does (Stands data first last (some pos)) closeFile ()
    (Stands data first last none) := by
  refine Does.modify fun s h => ?_
  refine ⟨h.disk, h.firstIndexOffset, h.lastIndexOffset, fun _ => ?_, fun _ h => nomatch h⟩
  rw [h.standing pos rfl]
  rfl

theorem seekg_does (offset : UInt32) :
    Does (fun s => ∃ pos, Stands data first last (some pos) s) (seekg offset) ()
      (Stands data first last (some offset.toNat)) := by
  refine Does.modify ?_
  rintro s ⟨pos, h⟩
  refine h.update _ rfl rfl rfl ?_
  rw [h.standing pos rfl, IStream.seekg_openAt]

theorem tellg_does : Does (Stands data first last (some pos)) tellg (UInt32.ofNat pos)
    (Stands data first last (some pos)) := by
  refine Does.modifyGet fun s h => ?_
  rw [h.standing pos rfl, IStream.tellg_openAt]
  exact ⟨rfl, h.update pos rfl rfl rfl rfl⟩

theorem getFlag_does (hdrop : data.drop pos = c :: tail) (flag : UInt8) :
    Does (Stands data first last (some pos)) (getFlag flag) c
      (Stands data first last (some (pos + 1))) := by
  refine Does.modifyGet fun s h => ?_
  rw [h.standing pos rfl, IStream.get_openAt hdrop]
  exact ⟨rfl, h.update (pos + 1) rfl rfl rfl rfl⟩

theorem putback_does : Does (Stands data first last (some (pos + 1))) putback ()
    (Stands data first last (some pos)) := by
  refine Does.modify fun s h => ?_
  refine h.update pos rfl rfl rfl ?_
  rw [h.standing _ rfl, IStream.putback_openAt]

theorem read3_does (hle : pos + 3 ≤ data.length) :
    Does (Stands data first last (some pos)) read3 (load3 data pos)
      (Stands data first last (some (pos + 3))) := by
  refine Does.modifyGet fun s h => ?_
  rw [h.standing pos rfl, IStream.read_openAt hle]
  exact ⟨readInt3_fill _ (length_take_drop hle), h.update (pos + 3) rfl rfl rfl rfl⟩

theorem read4_does (hle : pos + 4 ≤ data.length) :
    Does (Stands data first last (some pos)) read4 (load4 data pos)
      (Stands data first last (some (pos + 4))) := by
  refine Does.modifyGet fun s h => ?_
  rw [h.standing pos rfl, IStream.read_openAt hle]
  exact ⟨readInt4_fill _ (length_take_drop hle), h.update (pos + 4) rfl rfl rfl rfl⟩

theorem getline_does (hdrop : data.drop pos = str ++ 0 :: tail) (hnot : 0 ∉ str)
    (hlt : str.length < 80) :
    Does (Stands data first last (some pos)) getline str
      (Stands data first last (some (pos + str.length + 1))) := by
  refine Does.modifyGet fun s h => ?_
  rw [h.standing pos rfl, IStream.getline_openAt hdrop hnot hlt]
  exact ⟨rfl, h.update (pos + str.length + 1) rfl rfl rfl rfl⟩

/-! ### An address -/

theorem readIP_does {o : Nat} (hoffset : offset.toNat = o) (hle : o + 4 ≤ data.length) :
    Does (fun s => ∃ place, Stands data first last place s) (readIP offset) (load4 data o)
      (Stands data first last none) := by
  subst hoffset
  exact openFile_does.bind ((seekg_does offset).bind ((read4_does hle).bind
    (closeFile_does.bind (Does.pure _))))

end CodeSlices.Qqwry
