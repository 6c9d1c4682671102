import CodeSlices.Fat.Geometry

/-!
# The table of the clusters

`F.read_fat` of `lua/fat.lua`. `Bytes` wants two bytes behind every field that it reads, and behind
the last entry of a FAT there are none: what is stored there is read as 0, which is a free cluster.
-/

namespace CodeSlices.Fat

structure FatEntry where
  next : Nat
  deriving DecidableEq

/-- `boot.ClustMask` in a bitwise operation. -/
def maskNotNil : Option Nat → Except LuaError Nat
  | some mask => .ok mask
  | none => .error .bitwiseOnNil

/-- The entries that are left to read, from a byte of the FAT on. -/
def fatLoop (buffer : Option Buffer) (clustMask : Option Nat) (fatEntryOffset : Nat) :
    Nat → Nat → Except LuaError (List FatEntry)
  | 0, _ => .ok []
  | n + 1, idx => do
      let fat ← notNil buffer
      let mask ← maskNotNil clustMask
      let fatents ← fatLoop buffer clustMask fatEntryOffset n (idx + fatEntryOffset)
      .ok (⟨(bytes fat idx fatEntryOffset).toNat &&& mask⟩ :: fatents)

/-- Where the active FAT begins: the one of `ValidFat`, or the first when all are mirrored. -/
def activeFat (boot : Boot) : Nat :=
  let n := if boot.validFat ≥ 0 then boot.validFat.toNat else 0
  (boot.resSectors + n * boot.fatSecs) * boot.bytesPerSec

def fatBytes (boot : Boot) : Nat := boot.fatSecs * boot.bytesPerSec

/-- The rows of the table that is returned; its first has index 1 there. -/
def readFat (f : File) (boot : Boot) : Except LuaError (List FatEntry × File) := do
  let (buffer, f) := read f (activeFat boot) (fatBytes boot)
  let fatEntryOffset := if boot.clustMask = some CLUST16_MASK then 2 else 4
  let fatents ← fatLoop buffer boot.clustMask fatEntryOffset (boot.numClusters - CLUST_FIRST).toNat
    (fatEntryOffset * 2)
  .ok (⟨0⟩ :: ⟨0⟩ :: fatents, f)

/-- What the active FAT holds for a cluster. -/
def storedNext (image : Buffer) (boot : Boot) (cluster : Nat) : Nat :=
  littleEndian image (activeFat boot + 4 * cluster) 4 &&& CLUST32_MASK

/-- Row `cluster + 1` of the table, whose first is row 1, has what is stored for the cluster. -/
def HasEveryCluster (f : File) (boot : Boot) : Prop :=
  ∃ fatents f', readFat f boot = .ok (fatents, f') ∧
    ∀ cluster : Nat, CLUST_FIRST ≤ cluster → cluster < boot.numClusters →
      fatents[cluster]? = some ⟨storedNext f.image boot cluster⟩

variable {f : File} {boot : Boot}

theorem fatLoop_eq (buffer : Buffer) (mask size n idx : Nat) :
    fatLoop (some buffer) (some mask) size n idx =
      .ok ((List.range n).map fun k => ⟨(bytes buffer (idx + size * k) size).toNat &&& mask⟩) := by
  induction n generalizing idx with
  | zero => rfl
  | succ n ih =>
      have hshift : ∀ k, idx + size + size * k = idx + size * (k + 1) := fun k => by ring
      rw [fatLoop, ih, List.range_succ_eq_map, List.map_cons, List.map_map]
      simp only [hshift]
      rfl

theorem read_of_inside {offset n : Nat} (hpos : 0 < n) (hsize : offset + n ≤ f.image.size) :
    read f offset n = (some (f.image.slice offset n), { f with pos := offset + n }) := by
  have hslice : (f.image.slice offset n).size = n := Nat.min_eq_left (by omega)
  rw [read_of_lt (by omega), hslice]

theorem readFat_of_two (htwo : boot.numClusters ≤ 2) :
    ∃ f', readFat f boot = .ok ([⟨0⟩, ⟨0⟩], f') := by
  have hnone : (boot.numClusters - CLUST_FIRST).toNat = 0 := Int.toNat_eq_zero.mpr (by
    rw [CLUST_FIRST]
    omega)
  rw [readFat, hnone]
  exact ⟨_, rfl⟩

/-- An entry is read as it is stored if a byte of the FAT follows it and one more. -/
theorem readFat_of_inside (hmask : boot.clustMask = some CLUST32_MASK)
    (hfat : activeFat boot + fatBytes boot ≤ f.image.size) (hpos : 0 < fatBytes boot) :
    ∃ fatents f', readFat f boot = .ok (fatents, f') ∧
      ∀ cluster : Nat, CLUST_FIRST ≤ cluster → cluster < boot.numClusters →
        fatents[cluster]? = some ⟨if 4 * cluster + 4 + 1 < fatBytes boot
          then storedNext f.image boot cluster else 0⟩ := by
  have h16 : ¬ some CLUST32_MASK = some CLUST16_MASK := by decide
  rw [readFat, read_of_inside hpos hfat, hmask, if_neg h16]
  dsimp only
  rw [fatLoop_eq]
  refine ⟨_, _, rfl, fun cluster hfirst hlast => ?_⟩
  rw [CLUST_FIRST] at hfirst
  obtain ⟨k, rfl⟩ := Nat.exists_eq_add_of_le' hfirst
  have hk : k < (boot.numClusters - CLUST_FIRST).toNat := by
    rw [CLUST_FIRST]
    omega
  have hsize : (f.image.slice (activeFat boot) (fatBytes boot)).size = fatBytes boot :=
    Nat.min_eq_left (by omega)
  have hidx : 4 * 2 + 4 * k = 4 * (k + 2) := by ring
  rw [List.getElem?_cons_succ, List.getElem?_cons_succ, List.getElem?_map,
    List.getElem?_range hk, Option.map_some, toNat_bytes (by decide), hsize, littleEndian_slice,
    hidx, storedNext]
  split_ifs
  · rfl
  · rw [Nat.zero_and]

/-- The table has what is stored for every cluster exactly when the last entry read has two bytes
of the FAT behind it, or is one of a free cluster, or there is none. -/
theorem hasEveryCluster_iff (hmask : boot.clustMask = some CLUST32_MASK)
    (hfat : activeFat boot + fatBytes boot ≤ f.image.size)
    (hclusters : boot.numClusters ≤ (fatBytes boot / 4 : Nat)) :
    HasEveryCluster f boot ↔
      boot.numClusters ≤ 2 ∨ 4 * boot.numClusters + 2 ≤ fatBytes boot ∨
        storedNext f.image boot (boot.numClusters - 1).toNat = 0 := by
  by_cases htwo : boot.numClusters ≤ 2
  · obtain ⟨f', hread⟩ := readFat_of_two (f := f) htwo
    refine iff_of_true ⟨_, f', hread, fun cluster hfirst hlast => ?_⟩ (Or.inl htwo)
    rw [CLUST_FIRST] at hfirst
    omega
  · obtain ⟨n, hn⟩ := Int.eq_ofNat_of_zero_le (by omega : 0 ≤ boot.numClusters)
    obtain ⟨last, rfl⟩ := Nat.exists_eq_add_of_le' (by omega : 1 ≤ n)
    obtain ⟨fatents, f', hread, hrows⟩ := readFat_of_inside hmask hfat (by omega)
    have hlast : (boot.numClusters - 1).toNat = last := by omega
    rw [or_iff_right htwo, hlast]
    constructor
    · rintro ⟨fatents', f'', hread', hrows'⟩
      obtain ⟨rfl, rfl⟩ := Prod.mk.inj (Except.ok.inj (hread.symm.trans hread'))
      have hrow := (hrows last (by rw [CLUST_FIRST]; omega) (by omega)).symm.trans
        (hrows' last (by rw [CLUST_FIRST]; omega) (by omega))
      by_cases hbehind : 4 * last + 4 + 1 < fatBytes boot
      · exact Or.inl (by omega)
      · rw [if_neg hbehind] at hrow
        exact Or.inr (FatEntry.mk.inj (Option.some.inj hrow)).symm
    · intro h
      refine ⟨fatents, f', hread, fun cluster hfirst hbefore => ?_⟩
      rw [hrows cluster hfirst hbefore]
      by_cases hbehind : 4 * cluster + 4 + 1 < fatBytes boot
      · rw [if_pos hbehind]
      · obtain rfl : cluster = last := by omega
        rw [if_neg hbehind, h.resolve_left (by omega)]

theorem numClusters_of_oneSector {f' : File} (hread : readBoot f = .ok (boot, f'))
    (hbytes : 1 < boot.bytesPerSec) (hclust : boot.secPerClust = 1) :
    boot.numClusters = boot.numSectors - boot.dataStart + 1 := by
  rw [(isRead_of_readBoot hread).numClusters_eq (by omega) (by omega), hclust, Boot.rootSectors,
    if_neg (by omega)]
  omega

/-- A volume with sectors of 512 bytes and one FAT of one sector, in which a chain ends at each of
the last two clusters that the FAT has an entry for. -/
def lastClustersUsed (sectors : UInt8) : File where
  image := Buffer.sparse 81920 [(12, 2), (13, 1), (14, 32), (16, 1), (19, sectors), (36, 1),
    (44, 2), (48, 1), (16888, 0xF8), (16889, 0xFF), (16890, 0xFF), (16891, 0x0F), (16892, 0xF8),
    (16893, 0xFF), (16894, 0xFF), (16895, 0x0F)]
  pos := 0

theorem lastButOne_read : ∃ boot f', readBoot (lastClustersUsed 159) = .ok (boot, f') ∧
    boot.numClusters = 127 ∧ HasEveryCluster f' boot := by
  have hrun : ((readBoot (lastClustersUsed 159)).toOption.map fun r =>
      (r.1.bytesPerSec, r.1.secPerClust, r.1.dataStart, r.1.numSectors, fatBytes r.1,
        activeFat r.1, r.2.image.size)) = some (512, 1, 33, 159, 512, 16384, 81920) := by rfl
  obtain ⟨⟨boot, f'⟩, hread, hfields⟩ := exists_of_toOption_map_eq hrun
  simp only [Prod.mk.injEq] at hfields
  obtain ⟨hbytes, hclust, hstart, hsectors, hfat, hactive, hsize⟩ := hfields
  have hclusters := numClusters_of_oneSector hread (by omega) hclust
  refine ⟨boot, f', hread, by omega, (hasEveryCluster_iff (isRead_of_readBoot hread).clustMask
    (by omega) (by omega)).mpr (Or.inr (Or.inl (by omega)))⟩

/-- The last entry of the FAT, the end of a chain, is taken for a free cluster. -/
theorem lastCluster_notRead : ∃ boot f', readBoot (lastClustersUsed 160) = .ok (boot, f') ∧
    boot.clustMask = some CLUST32_MASK ∧ activeFat boot + fatBytes boot ≤ f'.image.size ∧
    boot.numClusters = (fatBytes boot / 4 : Nat) ∧ storedNext f'.image boot 127 = 0x0FFFFFF8 ∧
    (∃ fatents f₁, readFat f' boot = .ok (fatents, f₁) ∧ fatents[127]? = some ⟨0⟩) ∧
    ¬ HasEveryCluster f' boot := by
  have hrun : ((readBoot (lastClustersUsed 160)).toOption.map fun r =>
      (r.1.bytesPerSec, r.1.secPerClust, r.1.dataStart, r.1.numSectors, fatBytes r.1,
        activeFat r.1, r.2.image.size, storedNext r.2.image r.1 127)) =
          some (512, 1, 33, 160, 512, 16384, 81920, 0x0FFFFFF8) := by rfl
  obtain ⟨⟨boot, f'⟩, hread, hfields⟩ := exists_of_toOption_map_eq hrun
  simp only [Prod.mk.injEq] at hfields
  obtain ⟨hbytes, hclust, hstart, hsectors, hfat, hactive, hsize, hstored⟩ := hfields
  have hclusters := numClusters_of_oneSector hread (by omega) hclust
  have hmask := (isRead_of_readBoot hread).clustMask
  obtain ⟨fatents, f₁, hreadFat, hrows⟩ := readFat_of_inside (f := f') hmask (by omega) (by omega)
  have hrow := hrows 127 (by decide) (by omega)
  rw [if_neg (by omega)] at hrow
  refine ⟨boot, f', hread, hmask, by omega, by omega, hstored, ⟨fatents, f₁, hreadFat, hrow⟩, ?_⟩
  rintro ⟨fatents', f₂, hreadFat', hrows'⟩
  obtain ⟨rfl, rfl⟩ := Prod.mk.inj (Except.ok.inj (hreadFat.symm.trans hreadFat'))
  have hentry := hrow.symm.trans (hrows' 127 (by decide) (by omega))
  rw [hstored] at hentry
  exact absurd hentry (by decide)

end CodeSlices.Fat
