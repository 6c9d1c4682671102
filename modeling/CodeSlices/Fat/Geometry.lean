import Mathlib.Data.Set.Card
import Mathlib.Order.Interval.Finset.Nat
import CodeSlices.Fat.Boot

/-!
# Where the clusters are

`F.read_boot` keeps the place of the clusters in sectors, as `ClusterOffset`, and `F.read_dir` works
it out again in bytes. `F.read_boot` adds `BytesPerSec - 1` before its division, as one does before
rounding down, and then rounds up, so from two bytes a sector on its clusters begin a sector late.
-/

namespace CodeSlices.Fat

/-- The sectors before the first cluster. -/
def Boot.dataStart (boot : Boot) : Nat := boot.resSectors + boot.numFATs * boot.fatSecs

def lbaClusterBase (boot : Boot) : Nat := boot.dataStart * boot.bytesPerSec

/-- `cluster_size` of `F.read_dir`. -/
def clusterBytes (boot : Boot) : Nat := boot.secPerClust * boot.bytesPerSec

/-- `cluster_addr` of `F.read_dir`. -/
def clusterAddr (boot : Boot) (cluster : Nat) : Int :=
  lbaClusterBase boot + ((cluster : Int) - CLUST_FIRST) * clusterBytes boot

/-- Both ways to find a cluster lead to the same byte. -/
def AddressesAgree (boot : Boot) : Prop := ∀ cluster, CLUST_FIRST ≤ cluster →
  (boot.clusterOffset + cluster * boot.secPerClust) * boot.bytesPerSec = clusterAddr boot cluster

/-- The clusters that lie wholly inside the volume. -/
def wholeClusters (boot : Boot) : Set Nat :=
  { cluster | CLUST_FIRST ≤ cluster ∧
    clusterAddr boot cluster + clusterBytes boot ≤ boot.numSectors * boot.bytesPerSec }

def CountsWhole (boot : Boot) : Prop := boot.numClusters = (wholeClusters boot).ncard + 2

variable {f f' : File} {boot : Boot}

/-- The sectors that `F.read_boot` takes a root directory of no entries to have. -/
def Boot.rootSectors (boot : Boot) : Int := if boot.bytesPerSec = 1 then 0 else 1

theorem Boot.IsRead.clusterOffset_eq (hboot : boot.IsRead) (hbytes : 0 < boot.bytesPerSec) :
    boot.clusterOffset = boot.rootSectors + boot.dataStart - 2 * boot.secPerClust := by
  have hlt := hboot.bytesPerSec_lt
  have hceil : ⌈Double.divide (boot.bytesPerSec - 1) boot.bytesPerSec⌉ = boot.rootSectors := by
    have hquot : ((boot.bytesPerSec : Int) - 1) / boot.bytesPerSec = 0 :=
      Int.ediv_eq_zero_of_lt (by omega) (by omega)
    have hrem : ((boot.bytesPerSec : Int) - 1) % boot.bytesPerSec = boot.bytesPerSec - 1 :=
      Int.emod_eq_of_lt (by omega) (by omega)
    rw [Double.ceil_divide (by rw [abs_of_nonneg (by omega)]; omega) (by omega) (by omega), hquot,
      hrem, Boot.rootSectors]
    split_ifs <;> omega
  rw [hboot.clusterOffset, hceil, Boot.dataStart]
  push_cast [CLUST_FIRST]
  ring

theorem Boot.IsRead.numClusters_eq (hboot : boot.IsRead) (hbytes : 0 < boot.bytesPerSec)
    (hclust : 0 < boot.secPerClust) :
    boot.numClusters =
      (boot.numSectors - boot.dataStart - boot.rootSectors) / boot.secPerClust + 2 := by
  have hroot : 0 ≤ boot.rootSectors ∧ boot.rootSectors ≤ 1 := by
    rw [Boot.rootSectors]
    split_ifs <;> decide
  have hfats : boot.numFATs * boot.fatSecs ≤ 2 ^ 8 * 2 ^ 32 :=
    Nat.mul_le_mul hboot.numFATs_lt.le hboot.fatSecs_lt.le
  have hstart : boot.dataStart < 2 ^ 41 := by
    have := hboot.resSectors_lt
    rw [Boot.dataStart]
    omega
  have hsectors := hboot.numSectors_lt
  have hper := hboot.secPerClust_lt
  have habs : |(boot.numSectors : Int) -
      (boot.rootSectors + boot.dataStart - 2 * boot.secPerClust)| < 2 ^ 53 := by
    rw [abs_lt]
    omega
  rw [hboot.numClusters, hboot.clusterOffset_eq hbytes,
    Double.floor_divide habs (by omega) (by omega)]
  have hsplit : (boot.numSectors : Int) -
      (boot.rootSectors + boot.dataStart - 2 * boot.secPerClust) =
        boot.numSectors - boot.dataStart - boot.rootSectors + 2 * boot.secPerClust := by ring
  rw [hsplit, Int.add_mul_ediv_right _ _ (by omega)]

theorem Boot.IsRead.addressesAgree_iff (hboot : boot.IsRead) (hbytes : 0 < boot.bytesPerSec) :
    AddressesAgree boot ↔ boot.bytesPerSec = 1 := by
  have hdiff : ∀ cluster : Nat,
      (boot.clusterOffset + cluster * boot.secPerClust) * boot.bytesPerSec =
        clusterAddr boot cluster + boot.rootSectors * boot.bytesPerSec := by
    intro cluster
    rw [hboot.clusterOffset_eq hbytes, clusterAddr, lbaClusterBase, clusterBytes]
    push_cast [CLUST_FIRST]
    ring
  have hzero : boot.rootSectors * boot.bytesPerSec = 0 ↔ boot.bytesPerSec = 1 := by
    rw [Boot.rootSectors]
    split_ifs <;> omega
  simp only [AddressesAgree, hdiff, add_eq_left, hzero]
  exact ⟨fun h => h CLUST_FIRST (Nat.le_refl _), fun h _ _ => h⟩

theorem wholeClusters_eq (hbytes : 0 < boot.bytesPerSec) (hclust : 0 < boot.secPerClust) :
    wholeClusters boot =
      Finset.Ico 2 (2 + (boot.numSectors - boot.dataStart) / boot.secPerClust) := by
  ext cluster
  have hend : clusterAddr boot cluster + clusterBytes boot =
      (boot.dataStart + ((cluster : Int) - 1) * boot.secPerClust) * boot.bytesPerSec := by
    rw [clusterAddr, lbaClusterBase, clusterBytes]
    push_cast [CLUST_FIRST]
    ring
  rw [wholeClusters, Set.mem_ofPred_eq, hend, Finset.coe_Ico, Set.mem_Ico, CLUST_FIRST]
  refine and_congr_right fun hfirst => ?_
  obtain ⟨k, rfl⟩ := Nat.exists_eq_add_of_le hfirst
  have hlast : ((2 + k : Nat) : Int) - 1 = (k + 1 : Nat) := by push_cast; ring
  have hpos : 0 < (k + 1) * boot.secPerClust := Nat.mul_pos (Nat.succ_pos k) hclust
  rw [hlast, ← Nat.cast_mul, mul_le_mul_iff_left₀ (by omega), Nat.add_lt_add_iff_left,
    Nat.lt_iff_add_one_le, Nat.le_div_iff_mul_le hclust]
  omega

/-- One less does not change the quotient exactly when there is no remainder to take it from. -/
theorem sub_one_ediv_eq_iff {k : Nat} (hk : 0 < k) (x : Nat) :
    ((x : Int) - 1) / k = (x / k : Nat) ↔ ¬ k ∣ x := by
  cases x with
  | zero =>
      have hneg : ((0 : Nat) - 1 : Int) / k < 0 := Int.ediv_neg_of_neg_of_pos (by decide) (by omega)
      exact iff_of_false (by rw [Nat.zero_div]; exact hneg.ne) (not_not_intro (dvd_zero k))
  | succ y =>
      have hpred : ((y + 1 : Nat) : Int) - 1 = y := by omega
      rw [hpred, ← Int.natCast_ediv, Nat.succ_div]
      split_ifs with hdvd
      · exact iff_of_false (by omega) (not_not_intro hdvd)
      · exact iff_of_true rfl hdvd

theorem Boot.IsRead.countsWhole_iff (hboot : boot.IsRead) (hbytes : 0 < boot.bytesPerSec)
    (hclust : 0 < boot.secPerClust) :
    CountsWhole boot ↔ boot.dataStart ≤ boot.numSectors ∧
      (boot.bytesPerSec = 1 ∨ ¬ boot.secPerClust ∣ boot.numSectors - boot.dataStart) := by
  rw [CountsWhole, hboot.numClusters_eq hbytes hclust, wholeClusters_eq hbytes hclust,
    Set.ncard_coe_finset, Nat.card_Ico, Nat.add_sub_cancel_left, add_left_inj]
  by_cases hstart : boot.dataStart ≤ boot.numSectors
  · obtain ⟨x, hx⟩ := Nat.exists_eq_add_of_le hstart
    have hsub : (boot.numSectors : Int) - boot.dataStart = x := by omega
    rw [hsub, hx, Nat.add_sub_cancel_left, and_iff_right (Nat.le_add_right _ x), Boot.rootSectors]
    by_cases hone : boot.bytesPerSec = 1
    · rw [if_pos hone, sub_zero, Int.natCast_ediv]
      exact iff_of_true rfl (Or.inl hone)
    · rw [if_neg hone, or_iff_right hone, sub_one_ediv_eq_iff hclust]
  · have hroot : 0 ≤ boot.rootSectors := by
      rw [Boot.rootSectors]
      split_ifs <;> decide
    have hneg : ((boot.numSectors : Int) - boot.dataStart - boot.rootSectors) /
        boot.secPerClust < 0 := Int.ediv_neg_of_neg_of_pos (by omega) (by omega)
    rw [Nat.sub_eq_zero_of_le (Nat.le_of_not_le hstart), Nat.zero_div]
    exact iff_of_false hneg.ne (fun h => hstart h.1)

/-- In a table read from a boot sector both ways to find a cluster agree and `NumClusters` counts
the whole clusters exactly when a sector has one byte and the clusters begin inside the volume. -/
theorem geometry_agrees_iff (hread : readBoot f = .ok (boot, f')) (hbytes : 0 < boot.bytesPerSec)
    (hclust : 0 < boot.secPerClust) :
    AddressesAgree boot ∧ CountsWhole boot ↔
      boot.bytesPerSec = 1 ∧ boot.dataStart ≤ boot.numSectors := by
  have hboot := isRead_of_readBoot hread
  rw [hboot.addressesAgree_iff hbytes, hboot.countsWhole_iff hbytes hclust]
  tauto

/-- A boot sector with one sector a cluster, 32 reserved sectors, two FATs of one sector and 4096
sectors in all. -/
def bootSector (bytesPerSec : UInt8 × UInt8) : File where
  image := Buffer.sparse 2097152 [(11, bytesPerSec.1), (12, bytesPerSec.2), (13, 1), (14, 32),
    (16, 2), (33, 16), (36, 1), (44, 2), (48, 1)]
  pos := 0

theorem oneByteSectors_agree : ∃ boot f', readBoot (bootSector (1, 0)) = .ok (boot, f') ∧
    AddressesAgree boot ∧ CountsWhole boot := by
  have hrun : ((readBoot (bootSector (1, 0))).toOption.map fun r =>
      (r.1.bytesPerSec, r.1.secPerClust, r.1.dataStart, r.1.numSectors)) =
        some (1, 1, 34, 4096) := by decide
  obtain ⟨⟨boot, f'⟩, hread, hfields⟩ := exists_of_toOption_map_eq hrun
  simp only [Prod.mk.injEq] at hfields
  obtain ⟨hbytes, hclust, hstart, hsectors⟩ := hfields
  exact ⟨boot, f', hread, (geometry_agrees_iff hread (by omega) (by omega)).mpr
    ⟨hbytes, by omega⟩⟩

/-- With sectors of 512 bytes the clusters are a sector apart. -/
theorem bootSector_disagrees : ∃ boot f', readBoot (bootSector (0, 2)) = .ok (boot, f') ∧
    boot.rootDirEnts = 0 ∧ boot.bytesPerSec = 512 ∧ boot.secPerClust = 1 ∧
    ¬ AddressesAgree boot := by
  have hrun : ((readBoot (bootSector (0, 2))).toOption.map fun r =>
      (r.1.rootDirEnts, r.1.bytesPerSec, r.1.secPerClust)) = some (0, 512, 1) := by decide
  obtain ⟨⟨boot, f'⟩, hread, hfields⟩ := exists_of_toOption_map_eq hrun
  simp only [Prod.mk.injEq] at hfields
  obtain ⟨hents, hbytes, hclust⟩ := hfields
  refine ⟨boot, f', hread, hents, hbytes, hclust, fun hagree => ?_⟩
  have hone := ((isRead_of_readBoot hread).addressesAgree_iff (by omega)).mp hagree
  omega

end CodeSlices.Fat
