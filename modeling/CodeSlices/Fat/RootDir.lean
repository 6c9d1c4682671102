import CodeSlices.Fat.Boot

/-!
# Volumes with a root directory

On a volume of FAT12 or FAT16 the root directory stands between the FATs and the clusters, and the
boot sector counts its entries. `F.read_boot` of `lua/fat.lua` has the branches for such a volume
but raises before it comes to them.
-/

namespace CodeSlices.Fat

variable {f : File}

/-! ### What the boot sector says -/

def sectorCount (image : Buffer) : Nat :=
  if 0 < littleEndian image 19 2 then littleEndian image 19 2 else littleEndian image 32 4

/-- Where cluster 0 would begin, with the sectors of the root directory counted. -/
def clusterStart (image : Buffer) : Int :=
  littleEndian image 14 2 + littleEndian image 16 1 * littleEndian image 22 2 +
    ⌈((littleEndian image 17 2 * 32 : Nat) : ℚ) / littleEndian image 11 2⌉ -
      CLUST_FIRST * littleEndian image 13 1

def clusterCount (image : Buffer) : Int :=
  ⌊((sectorCount image - clusterStart image : Int) : ℚ) / littleEndian image 13 1⌋

/-- The count is too large for 16 bits. -/
def TooLarge (image : Buffer) : Prop :=
  ((CLUST_RSRVD &&& CLUST16_MASK : Nat) : Int) ≤ clusterCount image

/-- A volume that is not too large is read, with its geometry and the mask of its kind. -/
def ReadsVolume (f : File) : Prop :=
  TooLarge f.image ∨ ∃ boot f', readBoot f = .ok (boot, f') ∧
    boot.clusterOffset = clusterStart f.image ∧ boot.numClusters = clusterCount f.image ∧
    boot.clustMask = some (if clusterCount f.image < (CLUST_RSRVD &&& CLUST12_MASK : Nat) then
      CLUST12_MASK else CLUST16_MASK)

/-- No volume with a root directory is read. -/
theorem readsVolume_iff (f : File) (hsize : SECTOR_SIZE ≤ f.image.size)
    (hents : littleEndian f.image 17 2 ≠ 0) : ReadsVolume f ↔ TooLarge f.image := by
  refine ⟨?_, Or.inl⟩
  rintro (hlarge | ⟨boot, f', hread, -⟩)
  · exact hlarge
  · rw [readBoot_of_rootDirEnts hsize hents] at hread
    cases hread

/-- A volume of 20000 sectors with a root directory of 512 entries and two FATs of 80 sectors. -/
def fat16Volume : File where
  image := Buffer.sparse 10240000 [(12, 2), (13, 1), (14, 1), (16, 2), (18, 2), (19, 0x20),
    (20, 0x4e), (22, 80)]
  pos := 0

theorem fat16Volume_iff : ReadsVolume fat16Volume ↔ TooLarge fat16Volume.image :=
  readsVolume_iff fat16Volume (by decide) (by decide)

theorem clusterCount_fat16Volume : clusterCount fat16Volume.image = 19809 := by
  have hfields : littleEndian fat16Volume.image 11 2 = 512 ∧
      littleEndian fat16Volume.image 13 1 = 1 ∧ littleEndian fat16Volume.image 14 2 = 1 ∧
      littleEndian fat16Volume.image 16 1 = 2 ∧ littleEndian fat16Volume.image 17 2 = 512 ∧
      littleEndian fat16Volume.image 19 2 = 20000 ∧ littleEndian fat16Volume.image 22 2 = 80 := by
    decide
  obtain ⟨hbytes, hclust, hres, hfats, hents, hsectors, hsmall⟩ := hfields
  unfold clusterCount clusterStart sectorCount CLUST_FIRST
  rw [hbytes, hclust, hres, hfats, hents, hsectors, hsmall]
  norm_num

/-- `F.read_boot` raises on a volume of 19809 clusters. -/
theorem fat16Volume_not_read :
    littleEndian fat16Volume.image 17 2 ≠ 0 ∧ 0 < littleEndian fat16Volume.image 11 2 ∧
      0 < littleEndian fat16Volume.image 13 1 ∧ ¬ ReadsVolume fat16Volume := by
  refine ⟨by decide, by decide, by decide, ?_⟩
  rintro (hlarge | ⟨boot, f', hread, -⟩)
  · unfold TooLarge at hlarge
    rw [clusterCount_fat16Volume] at hlarge
    exact absurd hlarge (by decide)
  · rw [readBoot_of_rootDirEnts (by decide) (by decide)] at hread
    cases hread

end CodeSlices.Fat
