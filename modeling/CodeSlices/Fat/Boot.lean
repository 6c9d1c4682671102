import CodeSlices.Fat.Image
import CodeSlices.Lib.Double
import CodeSlices.Lib.Except

/-!
# The boot sector

`F.read_fsinfo` and `F.read_boot` of `lua/fat.lua`. `boot.flags` is nil unless the root entry count
is 0, and testing a bit of nil raises. `/` divides in double precision; a table with `BytesPerSec`
and `SecPerClust` positive has no infinities in it.
-/

namespace CodeSlices.Fat

def FLAG_FAT32 : Nat := 1
def SECTOR_SIZE : Nat := 512
def FSINFO_SIZE : Nat := SECTOR_SIZE * 2
def CLUST_FIRST : Nat := 2
def CLUST_RSRVD : Nat := 0xfffffff6
def CLUST12_MASK : Nat := 0xfff
def CLUST16_MASK : Nat := 0xffff
def CLUST32_MASK : Nat := 0xfffffff

structure Boot where
  bytesPerSec : Nat
  secPerClust : Nat
  resSectors : Nat
  numFATs : Nat
  rootDirEnts : Nat
  sectors : Nat
  media : Nat
  fatSmall : Nat
  secPerTrack : Nat
  heads : Nat
  hiddenSecs : Nat
  hugeSectors : Nat
  validFat : Int := -1
  fatSecs : Nat
  flags : Option Nat
  rootCl : Nat := 0
  fsInfo : Nat := 0
  backup : Nat := 0
  fsFree : Nat := 0
  fsNext : Nat := 0
  numSectors : Nat := 0
  clusterOffset : Int := 0
  numClusters : Int := 0
  clustMask : Option Nat := none
  numFatEntries : Int := 0
  clusterSize : Nat := 0
  numFiles : Nat := 1
  numFree : Nat := 0

structure FsInfo where
  free : Nat
  next : Nat

/-- `# buffer`, which the first call of `Bytes` takes. -/
def notNil : Option Buffer → Except LuaError Buffer
  | some buffer => .ok buffer
  | none => .error .lengthOfNil

def readFsinfo (f : File) (boot : Boot) : Except LuaError (FsInfo × File) := do
  let (buffer, f) := read f (boot.fsInfo * boot.bytesPerSec) FSINFO_SIZE
  let buffer ← notNil buffer
  .ok ({ free := (bytes buffer 0x1E8 4).toNat, next := (bytes buffer 0x1EC 4).toNat }, f)

/-- The fields that every boot sector has. -/
def parseFields (buffer : Buffer) : Boot where
  bytesPerSec := (bytes buffer 11 2).toNat
  secPerClust := (bytes buffer 13 1).toNat
  resSectors := (bytes buffer 14 2).toNat
  numFATs := (bytes buffer 16 1).toNat
  rootDirEnts := (bytes buffer 17 2).toNat
  sectors := (bytes buffer 19 2).toNat
  media := (bytes buffer 21 1).toNat
  fatSmall := (bytes buffer 22 2).toNat
  secPerTrack := (bytes buffer 24 2).toNat
  heads := (bytes buffer 26 2).toNat
  hiddenSecs := (bytes buffer 28 4).toNat
  hugeSectors := (bytes buffer 32 4).toNat
  fatSecs := (bytes buffer 22 2).toNat
  flags := if (bytes buffer 17 2).toNat = 0 then some FLAG_FAT32 else none

/-- `(boot.flags & FLAG_FAT32) == FLAG_FAT32` -/
def isFat32 (boot : Boot) : Except LuaError Bool :=
  match boot.flags with
  | some flags => .ok (flags &&& FLAG_FAT32 = FLAG_FAT32)
  | none => .error .bitwiseOnNil

/-- "Parse FAT32 info" -/
def parseFat32 (f : File) (buffer : Buffer) (boot : Boot) : Except LuaError (Boot × File) := do
  let val := (bytes buffer 40 1).toNat
  let boot := { boot with
    fatSecs := (bytes buffer 36 4).toNat
    validFat := if val &&& 0x80 = 0x80 then ((val &&& 0x0F : Nat) : Int) else boot.validFat
    rootCl := (bytes buffer 44 4).toNat
    fsInfo := (bytes buffer 48 2).toNat
    backup := (bytes buffer 50 2).toNat }
  let (fsinfo, f) ← readFsinfo f boot
  .ok ({ boot with fsFree := fsinfo.free, fsNext := fsinfo.next }, f)

def setSectors (boot : Boot) : Boot :=
  if boot.sectors > 0 then { boot with hugeSectors := 0, numSectors := boot.sectors }
  else { boot with numSectors := boot.hugeSectors }

/-- `ClusterOffset` and `NumClusters`. -/
def setClusters (boot : Boot) : Boot :=
  let rootSectors := ⌈Double.divide (boot.rootDirEnts * 32 + boot.bytesPerSec - 1) boot.bytesPerSec⌉
  let clusterOffset := rootSectors + boot.resSectors + boot.numFATs * boot.fatSecs -
    CLUST_FIRST * boot.secPerClust
  { boot with
    clusterOffset := clusterOffset
    numClusters := ⌊Double.divide (boot.numSectors - clusterOffset) boot.secPerClust⌋ }

/-- `ClustMask`, which stays nil on a file system too big for its kind, and `NumFatEntries`. -/
def setEntries (boot : Boot) (fat32 : Bool) : Boot :=
  let clustMask :=
    if fat32 then some CLUST32_MASK
    else if boot.numClusters < (CLUST_RSRVD &&& CLUST12_MASK : Nat) then some CLUST12_MASK
    else if boot.numClusters < (CLUST_RSRVD &&& CLUST16_MASK : Nat) then some CLUST16_MASK
    else none
  let numFatEntries :=
    if clustMask = some CLUST32_MASK then Double.divide (boot.fatSecs * boot.bytesPerSec) 4
    else if clustMask = some CLUST16_MASK then Double.divide (boot.fatSecs * boot.bytesPerSec) 2
    else Double.divide (boot.fatSecs * boot.bytesPerSec * 2) 3
  { boot with
    clustMask := clustMask
    numFatEntries := ⌊numFatEntries⌋
    clusterSize := boot.bytesPerSec * boot.secPerClust }

def readBoot (f : File) : Except LuaError (Boot × File) := do
  let (buffer, f) := read f 0 SECTOR_SIZE
  let buffer ← notNil buffer
  let boot := parseFields buffer
  let (boot, f) ← if ← isFat32 boot then parseFat32 f buffer boot else .ok (boot, f)
  let boot := setClusters (setSectors boot)
  let fat32 ← isFat32 boot
  .ok (setEntries boot fat32, f)

/-! ### What a boot table that was read looks like -/

/-- The bounds of the fields and what was computed from them, on the only path that ends without an
error: the one of a FAT32 volume. -/
structure Boot.IsRead (boot : Boot) : Prop where
  bytesPerSec_lt : boot.bytesPerSec < 2 ^ 16
  secPerClust_lt : boot.secPerClust < 2 ^ 8
  resSectors_lt : boot.resSectors < 2 ^ 16
  numFATs_lt : boot.numFATs < 2 ^ 8
  fatSecs_lt : boot.fatSecs < 2 ^ 32
  numSectors_lt : boot.numSectors < 2 ^ 32
  rootDirEnts : boot.rootDirEnts = 0
  clustMask : boot.clustMask = some CLUST32_MASK
  clusterSize : boot.clusterSize = boot.bytesPerSec * boot.secPerClust
  clusterOffset : boot.clusterOffset =
    ⌈Double.divide (boot.bytesPerSec - 1) boot.bytesPerSec⌉ + boot.resSectors +
      boot.numFATs * boot.fatSecs - CLUST_FIRST * boot.secPerClust
  numClusters : boot.numClusters =
    ⌊Double.divide (boot.numSectors - boot.clusterOffset) boot.secPerClust⌋

variable {f f' : File} {boot : Boot} {buffer : Buffer}

/-- A boot table under construction, on the path of a FAT32 volume. -/
structure Boot.IsParsed (boot : Boot) : Prop where
  bytesPerSec_lt : boot.bytesPerSec < 2 ^ 16
  secPerClust_lt : boot.secPerClust < 2 ^ 8
  resSectors_lt : boot.resSectors < 2 ^ 16
  numFATs_lt : boot.numFATs < 2 ^ 8
  fatSecs_lt : boot.fatSecs < 2 ^ 32
  sectors_lt : boot.sectors < 2 ^ 32
  hugeSectors_lt : boot.hugeSectors < 2 ^ 32
  rootDirEnts : boot.rootDirEnts = 0
  flags : boot.flags = some FLAG_FAT32

theorem Boot.IsParsed.isFat32_eq (hboot : boot.IsParsed) : isFat32 boot = .ok true := by
  rw [isFat32, hboot.flags]
  rfl

theorem isParsed_of_isFat32 {fat32 : Bool} (h : isFat32 (parseFields buffer) = .ok fat32) :
    (parseFields buffer).IsParsed := by
  by_cases hents : (bytes buffer 17 2).toNat = 0
  · have hlt : ∀ n, n ≤ 8 → ∀ offset, (bytes buffer offset n).toNat < 256 ^ n :=
      fun n hn offset => toNat_bytes_lt hn buffer offset
    exact ⟨hlt 2 (by decide) 11, hlt 1 (by decide) 13, hlt 2 (by decide) 14, hlt 1 (by decide) 16,
      (hlt 2 (by decide) 22).trans (by decide), (hlt 2 (by decide) 19).trans (by decide),
      hlt 4 (by decide) 32, hents, if_pos hents⟩
  · simp only [isFat32, parseFields, hents, if_false, reduceCtorEq] at h

theorem Boot.IsParsed.parseFat32 (hboot : boot.IsParsed) {boot' : Boot}
    (h : parseFat32 f buffer boot = .ok (boot', f')) : boot'.IsParsed := by
  obtain ⟨⟨fsinfo, f₁⟩, _, h⟩ := exists_of_bind_eq_ok h
  obtain ⟨rfl, _⟩ := Prod.mk.inj (Except.ok.inj h)
  exact { hboot with fatSecs_lt := toNat_bytes_lt (by decide) buffer 36 }

theorem Boot.IsParsed.setSectors (hboot : boot.IsParsed) :
    (setSectors boot).IsParsed ∧ (Fat.setSectors boot).numSectors < 2 ^ 32 := by
  unfold Fat.setSectors
  split
  · exact ⟨{ hboot with hugeSectors_lt := Nat.two_pow_pos 32 }, hboot.sectors_lt⟩
  · exact ⟨{ hboot with }, hboot.hugeSectors_lt⟩

theorem Boot.IsParsed.isRead (hboot : boot.IsParsed) (hsectors : boot.numSectors < 2 ^ 32) :
    (setEntries (setClusters boot) true).IsRead where
  bytesPerSec_lt := hboot.bytesPerSec_lt
  secPerClust_lt := hboot.secPerClust_lt
  resSectors_lt := hboot.resSectors_lt
  numFATs_lt := hboot.numFATs_lt
  fatSecs_lt := hboot.fatSecs_lt
  numSectors_lt := hsectors
  rootDirEnts := hboot.rootDirEnts
  clustMask := rfl
  clusterSize := rfl
  clusterOffset := by simp [setEntries, setClusters, hboot.rootDirEnts]
  numClusters := rfl

theorem isRead_of_readBoot (hread : readBoot f = .ok (boot, f')) : boot.IsRead := by
  obtain ⟨buffer, _, hread⟩ := exists_of_bind_eq_ok hread
  obtain ⟨fat32, hfat32, hread⟩ := exists_of_bind_eq_ok hread
  have hfields := isParsed_of_isFat32 hfat32
  obtain rfl : true = fat32 := Except.ok.inj (hfields.isFat32_eq.symm.trans hfat32)
  obtain ⟨⟨parsed, f₁⟩, hparsed, hread⟩ := exists_of_bind_eq_ok hread
  have hparsed := hfields.parseFat32 hparsed
  obtain ⟨fat32, hfat32, hread⟩ := exists_of_bind_eq_ok hread
  obtain ⟨hsectors, hlt⟩ := hparsed.setSectors
  obtain rfl : true = fat32 := Except.ok.inj (hsectors.isFat32_eq.symm.trans hfat32)
  obtain ⟨rfl, _⟩ := Prod.mk.inj (Except.ok.inj hread)
  exact hsectors.isRead hlt

/-! ### The boot sector of an image -/

theorem read_bootSector (hsize : SECTOR_SIZE ≤ f.image.size) :
    read f 0 SECTOR_SIZE = (some (f.image.slice 0 SECTOR_SIZE), ⟨f.image, SECTOR_SIZE⟩) := by
  have hpos : 0 < f.image.size := Nat.lt_of_lt_of_le (by decide) hsize
  have hread := read_of_lt hpos SECTOR_SIZE
  have hslice : (f.image.slice 0 SECTOR_SIZE).size = SECTOR_SIZE := by
    rw [Buffer.slice, Nat.sub_zero, Nat.min_eq_left hsize]
  rwa [hslice, Nat.zero_add] at hread

/-- A field of the boot sector, which is not near its end, is read from the image. -/
theorem bytes_bootSector (hsize : SECTOR_SIZE ≤ f.image.size) {offset n : Nat} (hn : n ≤ 8)
    (hend : offset + n + 1 < SECTOR_SIZE) :
    (bytes (f.image.slice 0 SECTOR_SIZE) offset n).toNat = littleEndian f.image offset n := by
  have hslice : (f.image.slice 0 SECTOR_SIZE).size = SECTOR_SIZE := by
    rw [Buffer.slice, Nat.sub_zero, Nat.min_eq_left hsize]
  rw [toNat_bytes hn, hslice, if_pos hend, littleEndian_slice, Nat.zero_add]

theorem isFat32_parseFields (buffer : Buffer) :
    isFat32 (parseFields buffer) =
      if (bytes buffer 17 2).toNat = 0 then .ok true else .error .bitwiseOnNil := by
  unfold isFat32 parseFields
  dsimp only
  split_ifs
  · rfl
  · rfl

/-- `boot.flags` is nil when there is a root directory, and its bits are tested at once. -/
theorem readBoot_of_rootDirEnts (hsize : SECTOR_SIZE ≤ f.image.size)
    (hents : littleEndian f.image 17 2 ≠ 0) : readBoot f = .error .bitwiseOnNil := by
  have hfield := bytes_bootSector hsize (by decide : 2 ≤ 8) (by decide : 17 + 2 + 1 < SECTOR_SIZE)
  unfold readBoot
  rw [read_bootSector hsize]
  change (isFat32 (parseFields (f.image.slice 0 SECTOR_SIZE)) >>= _) = _
  rw [isFat32_parseFields, hfield, if_neg hents, error_bind]

/-- The table before the sectors and clusters are counted. -/
theorem readBoot_of_fat32 (hsize : SECTOR_SIZE ≤ f.image.size)
    (hents : littleEndian f.image 17 2 = 0) :
    readBoot f = (parseFat32 ⟨f.image, SECTOR_SIZE⟩ (f.image.slice 0 SECTOR_SIZE)
        (parseFields (f.image.slice 0 SECTOR_SIZE)) >>= fun parsed =>
      .ok (setEntries (setClusters (setSectors parsed.1)) true, parsed.2)) := by
  have hfield := bytes_bootSector hsize (by decide : 2 ≤ 8) (by decide : 17 + 2 + 1 < SECTOR_SIZE)
  have hflags : isFat32 (parseFields (f.image.slice 0 SECTOR_SIZE)) = .ok true := by
    rw [isFat32_parseFields, hfield, if_pos hents]
  unfold readBoot
  rw [read_bootSector hsize]
  change (isFat32 (parseFields (f.image.slice 0 SECTOR_SIZE)) >>= _) = _
  rw [hflags, ok_bind]
  dsimp only
  rw [if_pos rfl]
  cases hparse : parseFat32 ⟨f.image, SECTOR_SIZE⟩ (f.image.slice 0 SECTOR_SIZE)
      (parseFields (f.image.slice 0 SECTOR_SIZE)) with
  | error e => rfl
  | ok parsed =>
      have hparsed := (isParsed_of_isFat32 hflags).parseFat32 hparse
      have hflags' := hparsed.setSectors.1.isFat32_eq
      change (isFat32 (setSectors parsed.1) >>= _) = _
      rw [hflags', ok_bind]
      rfl

theorem image_read (f : File) (offset : Int) (n : Nat) : (read f offset n).2.image = f.image := by
  rw [read, File.read, File.seek]
  split_ifs <;> rfl

theorem image_of_parseFat32 {boot' : Boot} (h : parseFat32 f buffer boot = .ok (boot', f')) :
    f'.image = f.image := by
  obtain ⟨⟨fsinfo, f₁⟩, hfsinfo, h⟩ := exists_of_bind_eq_ok h
  obtain ⟨_, rfl⟩ := Prod.mk.inj (Except.ok.inj h)
  obtain ⟨buffer', _, hfsinfo⟩ := exists_of_bind_eq_ok hfsinfo
  obtain ⟨_, rfl⟩ := Prod.mk.inj (Except.ok.inj hfsinfo)
  exact image_read f _ _

theorem image_of_readBoot (hread : readBoot f = .ok (boot, f')) : f'.image = f.image := by
  obtain ⟨buffer, _, hread⟩ := exists_of_bind_eq_ok hread
  obtain ⟨fat32, hfat32, hread⟩ := exists_of_bind_eq_ok hread
  obtain rfl : true = fat32 :=
    Except.ok.inj ((isParsed_of_isFat32 hfat32).isFat32_eq.symm.trans hfat32)
  obtain ⟨⟨parsed, f₁⟩, hparsed, hread⟩ := exists_of_bind_eq_ok hread
  obtain ⟨fat32, _, hread⟩ := exists_of_bind_eq_ok hread
  obtain ⟨_, rfl⟩ := Prod.mk.inj (Except.ok.inj hread)
  exact (image_of_parseFat32 hparsed).trans (image_read f _ _)

end CodeSlices.Fat
