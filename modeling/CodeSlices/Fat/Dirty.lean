import CodeSlices.Fat.Boot

/-!
# The dirty mark

`F.is_dirty` of `lua/fat.lua`, next to the two bits of FAT entry 1 that say whether a volume was
unmounted cleanly and without errors. A set bit means clean, and the function takes both of them
for the mark of a dirty volume.
-/

namespace CodeSlices.Fat

/-- The value is nil when the mask is neither that of FAT16 nor that of FAT32. -/
def isDirty (f : File) (boot : Boot) : Except LuaError (Option Bool × File) := do
  let (buffer, f) := read f (boot.resSectors * boot.bytesPerSec) boot.bytesPerSec
  if boot.clustMask = some CLUST16_MASK then
    let buffer ← notNil buffer
    let val := (bytes buffer 3 1).toNat
    .ok (some (val &&& 0xc0 = 0xc0), f)
  else if boot.clustMask = some CLUST32_MASK then
    let buffer ← notNil buffer
    let val := (bytes buffer 7 1).toNat
    .ok (some (val &&& 0x0c = 0x0c), f)
  else .ok (none, f)

/-! ### What the volume says -/

def bytesPerSector (image : Buffer) : Nat := littleEndian image 11 2

/-- Where the first FAT begins. -/
def fatStart (image : Buffer) : Nat := littleEndian image 14 2 * bytesPerSector image

def hasRootDir (image : Buffer) : Bool := littleEndian image 17 2 ≠ 0

/-- Entry 1 of the first FAT has both the clean-shutdown bit and the no-error bit set. -/
def MarkedClean (image : Buffer) : Prop :=
  if hasRootDir image then
    let entry := littleEndian image (fatStart image + 2) 2
    entry.testBit 15 ∧ entry.testBit 14
  else
    let entry := littleEndian image (fatStart image + 4) 4
    entry.testBit 27 ∧ entry.testBit 26

/-- The end of entry 1 of the first FAT. -/
def markEnd (image : Buffer) : Nat := fatStart image + if hasRootDir image then 4 else 8

/-- `F.is_dirty(F.read_boot())` is true when the volume is not marked clean, and false when it
is. -/
def ReportsDirty (f : File) : Prop :=
  ∃ boot f₁ dirty f₂, readBoot f = .ok (boot, f₁) ∧ isDirty f₁ boot = .ok (some dirty, f₂) ∧
    (dirty = true ↔ ¬ MarkedClean f.image)

variable {f f' : File} {boot : Boot} {buffer : Buffer}

/-! ### The boot table of a FAT32 volume -/

/-- Where `F.read_fsinfo` reads. -/
def fsInfoStart (image : Buffer) : Nat := littleEndian image 48 2 * bytesPerSector image

theorem readFsinfo_of_lt (hlt : boot.fsInfo * boot.bytesPerSec < f.image.size) :
    ∃ fsinfo f₁, readFsinfo f boot = .ok (fsinfo, f₁) := by
  unfold readFsinfo
  rw [← Int.natCast_mul, read_of_lt hlt]
  exact ⟨_, _, rfl⟩

theorem readFsinfo_of_le (hle : f.image.size ≤ boot.fsInfo * boot.bytesPerSec) :
    readFsinfo f boot = .error .lengthOfNil := by
  unfold readFsinfo
  rw [← Int.natCast_mul, read_of_le hle]
  rfl

theorem setSectors_eq (boot : Boot) :
    (setSectors boot).bytesPerSec = boot.bytesPerSec ∧
      (setSectors boot).resSectors = boot.resSectors := by
  unfold setSectors
  split_ifs
  · exact ⟨rfl, rfl⟩
  · exact ⟨rfl, rfl⟩

theorem parseFat32_eq (f : File) (buffer : Buffer) (boot : Boot) :
    ∃ boot' : Boot, parseFat32 f buffer boot = (readFsinfo f boot' >>= fun r =>
        .ok ({ boot' with fsFree := r.1.free, fsNext := r.1.next }, r.2)) ∧
      boot'.fsInfo = (bytes buffer 48 2).toNat ∧ boot'.bytesPerSec = boot.bytesPerSec ∧
      boot'.resSectors = boot.resSectors := by
  refine ⟨_, rfl, ?_, ?_, ?_⟩
  · rfl
  · rfl
  · rfl

/-- `F.read_boot` on a complete boot sector of a FAT32 volume, up to the read of FSInfo. -/
theorem readBoot_eq (hsize : SECTOR_SIZE ≤ f.image.size) (hroot : hasRootDir f.image = false) :
    ∃ boot : Boot, readBoot f = (readFsinfo ⟨f.image, SECTOR_SIZE⟩ boot >>= fun r =>
        .ok (setEntries (setClusters (setSectors
          { boot with fsFree := r.1.free, fsNext := r.1.next })) true, r.2)) ∧
      boot.fsInfo * boot.bytesPerSec = fsInfoStart f.image ∧
      boot.bytesPerSec = bytesPerSector f.image ∧
      boot.resSectors = littleEndian f.image 14 2 := by
  have hfield : ∀ offset, offset + 2 + 1 < SECTOR_SIZE →
      (bytes (f.image.slice 0 SECTOR_SIZE) offset 2).toNat = littleEndian f.image offset 2 :=
    fun offset => bytes_bootSector hsize (by decide)
  have hents : littleEndian f.image 17 2 = 0 := by simpa [hasRootDir] using hroot
  obtain ⟨boot, hparse, hinfo, hbytes, hres⟩ := parseFat32_eq ⟨f.image, SECTOR_SIZE⟩
    (f.image.slice 0 SECTOR_SIZE) (parseFields (f.image.slice 0 SECTOR_SIZE))
  rw [hfield 48 (by decide)] at hinfo
  have hbytes' : boot.bytesPerSec = bytesPerSector f.image := hbytes.trans (hfield 11 (by decide))
  refine ⟨boot, ?_, ?_, hbytes', hres.trans (hfield 14 (by decide))⟩
  · rw [readBoot_of_fat32 hsize hents, hparse]
    cases readFsinfo ⟨f.image, SECTOR_SIZE⟩ boot with
    | error e => rfl
    | ok r => rfl
  · rw [hinfo, hbytes', fsInfoStart]

theorem readBoot_of_fsInfo_lt (hsize : SECTOR_SIZE ≤ f.image.size)
    (hroot : hasRootDir f.image = false) (hinfo : fsInfoStart f.image < f.image.size) :
    ∃ boot f₁, readBoot f = .ok (boot, f₁) ∧ boot.bytesPerSec = bytesPerSector f.image ∧
      boot.resSectors = littleEndian f.image 14 2 := by
  obtain ⟨boot, hread, hstart, hbytes, hres⟩ := readBoot_eq hsize hroot
  rw [← hstart] at hinfo
  obtain ⟨fsinfo, f₁, hfsinfo⟩ := readFsinfo_of_lt (f := ⟨f.image, SECTOR_SIZE⟩) hinfo
  rw [hfsinfo, ok_bind] at hread
  exact ⟨_, _, hread, (setSectors_eq _).1.trans hbytes, (setSectors_eq _).2.trans hres⟩

theorem readBoot_of_fsInfo_le (hsize : SECTOR_SIZE ≤ f.image.size)
    (hroot : hasRootDir f.image = false) (hinfo : f.image.size ≤ fsInfoStart f.image) :
    readBoot f = .error .lengthOfNil := by
  obtain ⟨boot, hread, hstart, -⟩ := readBoot_eq hsize hroot
  rw [← hstart] at hinfo
  rw [hread, readFsinfo_of_le (f := ⟨f.image, SECTOR_SIZE⟩) hinfo, error_bind]

/-! ### The two bits -/

theorem and_0x0c_iff (byte : UInt8) :
    byte.toNat &&& 0x0c = 0x0c ↔ byte.toNat.testBit 3 = true ∧ byte.toNat.testBit 2 = true := by
  have hall : ∀ n : Fin 256,
      n.val &&& 0x0c = 0x0c ↔ n.val.testBit 3 = true ∧ n.val.testBit 2 = true := by
    decide +kernel
  exact hall ⟨byte.toNat, byte.toNat_lt⟩

theorem markedClean_iff (hroot : hasRootDir f.image = false) :
    MarkedClean f.image ↔ (f.image.get (fatStart f.image + 7)).toNat &&& 0x0c = 0x0c := by
  have hshutdown : (littleEndian f.image (fatStart f.image + 4) 4).testBit 27 =
      (f.image.get (fatStart f.image + 7)).toNat.testBit 3 :=
    testBit_littleEndian f.image (fatStart f.image + 4) 3 3
  have herror : (littleEndian f.image (fatStart f.image + 4) 4).testBit 26 =
      (f.image.get (fatStart f.image + 7)).toNat.testBit 2 :=
    testBit_littleEndian f.image (fatStart f.image + 4) 3 2
  rw [and_0x0c_iff, MarkedClean, hroot, if_neg Bool.false_ne_true, ← hshutdown, ← herror]

/-- The bytes of the sector that `F.is_dirty` gets. -/
def sectorRead (image : Buffer) : Nat :=
  min (bytesPerSector image) (image.size - fatStart image)

theorem isDirty_eq (hmask : boot.clustMask = some CLUST32_MASK)
    (hbytes : boot.bytesPerSec = bytesPerSector f.image)
    (hres : boot.resSectors = littleEndian f.image 14 2)
    (hfat : fatStart f.image < f.image.size) :
    ∃ f₁, isDirty f boot = .ok (some (decide ((if 9 < sectorRead f.image then
      (f.image.get (fatStart f.image + 7)).toNat else 0) &&& 0x0c = 0x0c)), f₁) := by
  have hval : (bytes (f.image.slice (fatStart f.image) (bytesPerSector f.image)) 7 1).toNat =
      if 9 < sectorRead f.image then (f.image.get (fatStart f.image + 7)).toNat else 0 := by
    rw [toNat_bytes (by decide), littleEndian_slice, littleEndian, littleEndian, Nat.mul_zero,
      Nat.add_zero]
    rfl
  have h16 : ¬ some CLUST32_MASK = some CLUST16_MASK := by decide
  unfold isDirty
  rw [← Int.natCast_mul, hres, hbytes,
    show littleEndian f.image 14 2 * bytesPerSector f.image = fatStart f.image from rfl,
    read_of_lt hfat, hmask, ← hval]
  dsimp only
  rw [if_neg h16, if_pos rfl]
  exact ⟨_, rfl⟩

/-! ### What is reported -/

theorem reportsDirty_of_eq_ok {f₁ f₂ : File} {dirty : Bool} (hread : readBoot f = .ok (boot, f₁))
    (hdirty : isDirty f₁ boot = .ok (some dirty, f₂)) :
    ReportsDirty f ↔ (dirty = true ↔ ¬ MarkedClean f.image) := by
  constructor
  · rintro ⟨boot', f₁', dirty', f₂', hread', hdirty', hiff⟩
    obtain ⟨rfl, rfl⟩ := Prod.mk.inj (Except.ok.inj (hread.symm.trans hread'))
    obtain ⟨heq, -⟩ := Prod.mk.inj (Except.ok.inj (hdirty.symm.trans hdirty'))
    rwa [Option.some.inj heq]
  · intro hiff
    exact ⟨boot, f₁, dirty, f₂, hread, hdirty, hiff⟩

theorem reportsDirty_of_fsInfo_lt (hsize : SECTOR_SIZE ≤ f.image.size)
    (hroot : hasRootDir f.image = false) (hinfo : fsInfoStart f.image < f.image.size)
    (hfat : fatStart f.image < f.image.size) :
    ReportsDirty f ↔ sectorRead f.image ≤ 9 ∧ MarkedClean f.image := by
  obtain ⟨boot, f₁, hread, hbytes, hres⟩ := readBoot_of_fsInfo_lt hsize hroot hinfo
  have himage := image_of_readBoot hread
  rw [← himage] at hbytes hres hfat
  obtain ⟨f₂, hdirty⟩ := isDirty_eq (isRead_of_readBoot hread).clustMask hbytes hres hfat
  rw [himage] at hdirty
  rw [reportsDirty_of_eq_ok hread hdirty, decide_eq_true_iff]
  by_cases hlen : 9 < sectorRead f.image
  · rw [if_pos hlen, ← markedClean_iff hroot]
    exact iff_of_false iff_not_self fun h => absurd h.1 (Nat.not_le_of_lt hlen)
  · rw [if_neg hlen, Nat.zero_and, and_iff_right (Nat.le_of_not_lt hlen)]
    simp

/-- `F.is_dirty` reports what the volume says exactly for a clean FAT32 volume of which it gets too
little to see any bit. -/
theorem reportsDirty_iff (f : File) (hsize : SECTOR_SIZE ≤ f.image.size)
    (hfat : markEnd f.image ≤ f.image.size) :
    ReportsDirty f ↔ hasRootDir f.image = false ∧ fsInfoStart f.image < f.image.size ∧
      sectorRead f.image ≤ 9 ∧ MarkedClean f.image := by
  have hstart : fatStart f.image < f.image.size := by
    unfold markEnd at hfat
    split_ifs at hfat <;> omega
  cases hroot : hasRootDir f.image with
  | true =>
      have hents : littleEndian f.image 17 2 ≠ 0 := by simpa [hasRootDir] using hroot
      refine iff_of_false ?_ fun h => absurd h.1 (by decide)
      rintro ⟨boot, f₁, -, -, hread, -⟩
      rw [readBoot_of_rootDirEnts hsize hents] at hread
      cases hread
  | false =>
      rw [eq_self, true_and]
      by_cases hinfo : fsInfoStart f.image < f.image.size
      · rw [and_iff_right hinfo]
        exact reportsDirty_of_fsInfo_lt hsize hroot hinfo hstart
      · refine iff_of_false ?_ fun h => hinfo h.1
        rintro ⟨boot, f₁, -, -, hread, -⟩
        rw [readBoot_of_fsInfo_le hsize hroot (Nat.le_of_not_lt hinfo)] at hread
        cases hread

/-- A FAT32 volume of 8 bytes a sector whose first FAT begins at byte 800 and is marked clean. -/
def eightByteSectors : File where
  image := Buffer.sparse 2048 [(11, 8), (13, 1), (14, 100), (16, 2), (33, 16), (36, 1), (44, 2),
    (48, 1), (804, 0xff), (805, 0xff), (806, 0xff), (807, 0x0f)]
  pos := 0

theorem eightByteSectors_reported : ReportsDirty eightByteSectors := by
  refine (reportsDirty_iff eightByteSectors (by decide) (by decide)).mpr ⟨by decide, by decide,
    by decide, ?_⟩
  exact (markedClean_iff (by decide)).mpr (by decide)

/-- A FAT32 volume of 512 bytes a sector whose first FAT begins at byte 16384 and is marked
clean. -/
def cleanVolume : File where
  image := Buffer.sparse 2097152 [(12, 2), (13, 1), (14, 32), (16, 2), (33, 16), (36, 1), (44, 2),
    (48, 1), (16388, 0xff), (16389, 0xff), (16390, 0xff), (16391, 0x0f)]
  pos := 0

/-- The volume is clean and reported as dirty. -/
theorem cleanVolume_misreported :
    MarkedClean cleanVolume.image ∧
      ((readBoot cleanVolume >>= fun r => isDirty r.2 r.1).toOption.map fun r => r.1) =
        some (some true) ∧
      ¬ ReportsDirty cleanVolume := by
  refine ⟨?_, by decide, ?_⟩
  · exact (markedClean_iff (by decide)).mpr (by decide)
  · rw [reportsDirty_of_fsInfo_lt (by decide) (by decide) (by decide) (by decide)]
    exact fun h => absurd h.1 (by decide)

end CodeSlices.Fat
