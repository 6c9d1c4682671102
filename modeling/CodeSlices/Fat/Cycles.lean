import CodeSlices.Fat.Dir

/-!
# Directories that lead back to themselves

`F.read_dir` keeps no record of the blocks it is in and passes over the names that begin with a dot
only, so it comes to an end exactly when no block that it enters leads back to itself.
-/

namespace CodeSlices.Fat

open Relation

variable {image : Buffer} {boot : Boot}

theorem startOf_none (pos : Nat) : startOf boot none pos = lbaClusterBase boot := by
  rw [startOf, Option.getD_none]
  exact (if_pos (Int.natCast_nonneg _)).trans (Int.toNat_natCast _)

theorem finite_children (image : Buffer) (boot : Boot) :
    {p | (walker image boot).children p ≠ []}.Finite := by
  refine (Set.finite_lt_nat image.size).subset fun p hp => ?_
  by_contra hend
  have hnone : blockBytes image p = 0 := by
    rw [blockBytes, Nat.sub_eq_zero_of_le (Nat.le_of_not_lt hend), Nat.min_zero]
  refine hp ?_
  rw [walker_children, hnone]
  rfl

/-- A call ends, with a listing, exactly when the traversal does. -/
theorem readDir_ends_iff_visit (boot : Boot) (f : File) (fuel : Nat) :
    (∃ listing, readDir boot fuel f none 0 = .ok listing) ↔
      ∃ result, (walker f.image boot).visit fuel (lbaClusterBase boot) = some result := by
  have hsimulates := readDir_simulates boot f.image fuel none 0 f.pos
  rw [startOf_none] at hsimulates
  rcases hsimulates with ⟨hnone, herror⟩ | ⟨listing, result, hsome, hok, _⟩
  · refine iff_of_false (fun ⟨listing, hok⟩ => ?_) (fun ⟨result, hsome⟩ => ?_)
    · cases herror.symm.trans hok
    · cases hnone.symm.trans hsome
  · exact iff_of_true ⟨listing, hok⟩ ⟨result, hsome⟩

/-- `F.read_dir` comes to an end exactly when no block that it enters leads back to itself. -/
theorem readDir_ends_iff (boot : Boot) (f : File) :
    (∃ fuel listing, readDir boot fuel f none 0 = .ok listing) ↔
      ∀ p, ReflTransGen (walker f.image boot).Leads (lbaClusterBase boot) p →
        ¬ TransGen (walker f.image boot).Leads p p := by
  rw [← Traversal.visit_ends_iff (finite_children f.image boot)]
  exact exists_congr (readDir_ends_iff_visit boot f)

/-- A volume whose only directory has one entry, of itself. -/
def ownEntry : File where
  image := Buffer.sparse 81920 [(12, 2), (13, 1), (14, 32), (16, 1), (19, 160), (36, 1), (44, 2),
    (48, 1), (16896, 65), (16907, 0x10), (16922, 2)]
  pos := 0

theorem ownEntry_leads {boot : Boot} (hbase : lbaClusterBase boot = 16896) :
    (walker ownEntry.image boot).Leads 16896 16896 := by
  have haddr : clusterAddr boot (slotCluster ownEntry.image 16896) = 16896 := by
    have hcluster : slotCluster ownEntry.image 16896 = CLUST_FIRST := by rfl
    rw [clusterAddr, hbase, hcluster, sub_self, zero_mul]
    rfl
  refine ⟨16896, [], [], .nil, ?_, ?_, rfl, trivial, ?_⟩
  · rw [walker_children]
    rfl
  · rw [walker_follow]
    rfl
  · rw [walker_enter, haddr]
    rfl

theorem ownEntry_endless : ∃ boot f', readBoot ownEntry = .ok (boot, f') ∧
    0 < boot.bytesPerSec ∧ 0 < boot.secPerClust ∧
    ∀ fuel, readDir boot fuel f' none 0 = .error .outOfFuel := by
  have hrun : ((readBoot ownEntry).toOption.map fun r =>
      (r.1.bytesPerSec, r.1.secPerClust, lbaClusterBase r.1)) = some (512, 1, 16896) := by decide
  obtain ⟨⟨boot, f'⟩, hread, hfields⟩ := exists_of_toOption_map_eq hrun
  simp only [Prod.mk.injEq] at hfields
  obtain ⟨hbytes, hclust, hbase⟩ := hfields
  have himage := image_of_readBoot hread
  refine ⟨boot, f', hread, by omega, by omega, fun fuel => ?_⟩
  have hsimulates := readDir_simulates boot f'.image fuel none 0 f'.pos
  rcases hsimulates with ⟨_, herror⟩ | ⟨_, result, hsome, _⟩
  · exact herror
  · rw [startOf_none, hbase, himage] at hsome
    have hends := (Traversal.visit_ends_iff (finite_children ownEntry.image boot)).mp
      ⟨fuel, result, hsome⟩
    exact absurd (.single (ownEntry_leads hbase)) (hends 16896 .refl)

end CodeSlices.Fat
