import CodeSlices.Fat.Cycles
import CodeSlices.Fat.Table
import CodeSlices.Lib.Contents

/-!
# The directory tree of a volume

What a FAT32 volume holds: the entries of a directory are those of its whole chain of clusters up to
the first end marker, and below an entry of a directory that is not deleted there are the entries of
that directory. `F.read_dir` lists one block for each directory, from its first cluster on and for
the root from the first cluster of the volume on, and goes below deleted entries too.
-/

namespace CodeSlices.Fat

def CLUST_EOFS : Nat := 0xfffffff8

def slotByte (image : Buffer) (a offset : Nat) : Nat := (image.get (a + offset)).toNat

/-- An entry of a short name that is not `.` or `..`. -/
def IsEntry (image : Buffer) (a : Nat) : Prop :=
  slotByte image a 11 &&& 0x0F ≠ 0x0F ∧ image.get a ≠ 46

instance (image : Buffer) (a : Nat) : Decidable (IsEntry image a) :=
  inferInstanceAs (Decidable (_ ∧ _))

/-- An entry of a directory that is not deleted. -/
structure IsLiveDirectory (image : Buffer) (a : Nat) : Prop where
  inside : a + dirEntrySize ≤ image.size
  directory : testBit (slotByte image a 11) 4
  live : image.get a ≠ FLAG_DELETE

def firstCluster (image : Buffer) (a : Nat) : Nat :=
  littleEndian image (a + 0x1A) 2 + littleEndian image (a + 0x14) 2 <<< 16

/-- A cluster with an entry in the FAT and all its bytes in the image. -/
structure IsCluster (image : Buffer) (boot : Boot) (cluster : Nat) : Prop where
  first : CLUST_FIRST ≤ cluster
  unreserved : cluster < CLUST_RSRVD &&& CLUST32_MASK
  inFat : 4 * cluster + 4 ≤ fatBytes boot
  inImage : clusterAddr boot cluster + clusterBytes boot ≤ image.size

/-- The chain from a cluster to the one that ends it. -/
inductive IsChain (image : Buffer) (boot : Boot) : Nat → List Nat → Prop
  | last {cluster : Nat} (hcluster : IsCluster image boot cluster)
      (heof : CLUST_EOFS &&& CLUST32_MASK ≤ storedNext image boot cluster) :
      IsChain image boot cluster [cluster]
  | next {cluster : Nat} {clusters : List Nat} (hcluster : IsCluster image boot cluster)
      (hrest : IsChain image boot (storedNext image boot cluster) clusters) :
      IsChain image boot cluster (cluster :: clusters)

def clusterSlots (boot : Boot) (cluster : Nat) : List Nat :=
  (List.range (clusterBytes boot / dirEntrySize)).map fun k =>
    (clusterAddr boot cluster).toNat + dirEntrySize * k

/-- The entries of a directory, by their places in the image. -/
def chainEntries (image : Buffer) (boot : Boot) (clusters : List Nat) : List Nat :=
  ((clusters.flatMap (clusterSlots boot)).takeWhile fun a => image.get a ≠ 0).filter
    fun a => IsEntry image a

/-- What is below an entry: the entries of its chain, or nothing. -/
inductive Has (image : Buffer) (boot : Boot) : Nat → List Nat → Prop
  | directory {a : Nat} {clusters : List Nat} (hdir : IsLiveDirectory image a)
      (hchain : IsChain image boot (firstCluster image a) clusters) :
      Has image boot a (chainEntries image boot clusters)
  | leaf {a : Nat} (hleaf : ¬ IsLiveDirectory image a) : Has image boot a []

/-- The tree of a volume, with the entries of each directory in any order. No entry is in two places
of it. -/
structure IsTreeOf (image : Buffer) (boot : Boot) (tree : Forest Nat) : Prop where
  root : ∃ clusters, IsChain image boot boot.rootCl clusters ∧
    tree.roots.Perm (chainEntries image boot clusters)
  below : tree.Obeys (Has image boot)
  nodup : ((tree.preorder 0).map Prod.snd).Nodup

/-- What is printed are the entries of the tree of the volume, each at its depth and once. -/
def PrintsTree (f : File) (boot : Boot) : Prop :=
  ∃ fuel listing tree, readDir boot fuel f none 0 = .ok listing ∧ IsTreeOf f.image boot tree ∧
    listing.lines.map (fun line => (line.dirDepth, line.addr)) = tree.preorder 0

/-- The block at the first cluster shows what the root has, and every block that is entered from
there what the entry has below which it is. -/
structure BlocksFit (image : Buffer) (boot : Boot) : Prop where
  root : ∀ clusters, IsChain image boot boot.rootCl clusters →
    ((walker image boot).children (lbaClusterBase boot)).Perm (chainEntries image boot clusters)
  below : (walker image boot).Shows (Has image boot) (lbaClusterBase boot)

variable {image : Buffer} {boot : Boot} {f : File} {tree : Forest Nat}

theorem IsChain.head_isCluster {cluster : Nat} {clusters : List Nat}
    (hchain : IsChain image boot cluster clusters) : IsCluster image boot cluster := by
  cases hchain with
  | last hcluster _ => exact hcluster
  | next hcluster _ => exact hcluster

/-- An end mark is not the number of a cluster. -/
theorem IsCluster.not_eof {cluster : Nat} (hcluster : IsCluster image boot cluster) :
    ¬ CLUST_EOFS &&& CLUST32_MASK ≤ cluster :=
  Nat.not_le_of_lt (hcluster.unreserved.trans (by decide))

theorem IsChain.unique {cluster : Nat} {left right : List Nat}
    (hleft : IsChain image boot cluster left) (hright : IsChain image boot cluster right) :
    left = right := by
  induction hleft generalizing right with
  | last _ heof =>
      cases hright with
      | last _ _ => rfl
      | next _ hrest => exact absurd heof hrest.head_isCluster.not_eof
  | next _ hrest ih =>
      cases hright with
      | last _ heof => exact absurd heof hrest.head_isCluster.not_eof
      | next _ hrest' => rw [ih hrest']

theorem slotAttr_eq {a : Nat} (ha : a + dirEntrySize ≤ image.size) :
    slotAttr image a = slotByte image a 11 := by
  rw [dirEntrySize] at ha
  rw [slotAttr, toNat_bytes (by decide), if_pos (by omega)]
  rfl

theorem has_unique (image : Buffer) (boot : Boot) (a : Nat) (left right : List Nat)
    (hleft : Has image boot a left) (hright : Has image boot a right) : left = right := by
  cases hleft with
  | directory hdir hchain =>
      cases hright with
      | directory _ hchain' => rw [hchain.unique hchain']
      | leaf hleaf => exact absurd hdir hleaf
  | leaf hleaf =>
      cases hright with
      | directory hdir _ => exact absurd hdir hleaf
      | leaf _ => rfl

/-- What is not followed is no directory. -/
theorem has_of_not_follow (image : Buffer) (boot : Boot) (a : Nat) (as : List Nat)
    (hfollow : ¬ (walker image boot).follow a) (hhas : Has image boot a as) : as = [] := by
  cases hhas with
  | directory hdir _ =>
      rw [walker_follow, slotAttr_eq hdir.inside] at hfollow
      exact absurd hdir.directory hfollow
  | leaf _ => rfl

/-- The order of the entries aside, a volume has one tree. -/
theorem IsTreeOf.iff_perm {forest : Forest Nat} (htree : IsTreeOf image boot tree) :
    IsTreeOf image boot forest ↔ forest.Obeys (Has image boot) ∧ forest.roots.Perm tree.roots := by
  obtain ⟨clusters, hchain, hroots⟩ := htree.root
  constructor
  · rintro ⟨⟨clusters', hchain', hroots'⟩, hobeys, _⟩
    exact ⟨hobeys, hroots'.trans (hchain.unique hchain' ▸ hroots.symm)⟩
  · rintro ⟨hobeys, hperm⟩
    have hpreorder := Forest.Obeys.preorder_perm (has_unique image boot) hobeys htree.below hperm 0
    exact ⟨⟨clusters, hchain, hperm.trans hroots⟩, hobeys,
      (hpreorder.map Prod.snd).nodup_iff.mpr htree.nodup⟩

/-- The tree of the volume is printed exactly when the traversal finds it. -/
theorem printsTree_iff_isForestOf : PrintsTree f boot ↔
    ∃ tree, (walker f.image boot).IsForestOf (lbaClusterBase boot) tree ∧
      IsTreeOf f.image boot tree := by
  constructor
  · rintro ⟨fuel, listing, tree, hok, htree, hlines⟩
    have hsimulates := readDir_simulates boot f.image fuel none 0 f.pos
    rw [startOf_none] at hsimulates
    rcases hsimulates with ⟨_, herror⟩ | ⟨listing', ⟨forest, s⟩, hsome, hok', _, hlines'⟩
    · cases herror.symm.trans hok
    · obtain rfl := Except.ok.inj (hok.symm.trans hok')
      obtain rfl : forest = tree := Forest.preorder_injective (hlines'.symm.trans hlines)
      exact ⟨forest, Traversal.exists_visit_iff.mp ⟨fuel, s, hsome⟩, htree⟩
  · rintro ⟨tree, hforest, htree⟩
    obtain ⟨fuel, s, hsome⟩ := Traversal.exists_visit_iff.mpr hforest
    have hsimulates := readDir_simulates boot f.image fuel none 0 f.pos
    rw [startOf_none] at hsimulates
    rcases hsimulates with ⟨hnone, _⟩ | ⟨listing, ⟨forest, s'⟩, hsome', hok, _, hlines⟩
    · cases hnone.symm.trans hsome
    · obtain ⟨rfl, rfl⟩ := Prod.mk.inj (Option.some.inj (hsome.symm.trans hsome'))
      exact ⟨fuel, listing, tree, hok, htree, hlines⟩

/-- The tree of a volume is printed exactly when the blocks that are read fit. -/
theorem printsTree_iff (hvolume : ∃ tree, IsTreeOf f.image boot tree) :
    PrintsTree f boot ↔ BlocksFit f.image boot := by
  obtain ⟨tree, htree⟩ := hvolume
  obtain ⟨clusters, hchain, hroots⟩ := htree.root
  have hfound := Traversal.exists_obeys_iff (t := walker f.image boot) (n := lbaClusterBase boot)
    (has_unique f.image boot) (has_of_not_follow f.image boot) htree.below
  rw [printsTree_iff_isForestOf, exists_congr fun forest => and_congr_right' htree.iff_perm, hfound]
  constructor
  · rintro ⟨hchildren, hshows⟩
    exact ⟨fun _ hchain' => hchain.unique hchain' ▸ hchildren.trans hroots, hshows⟩
  · rintro ⟨hroot, hshows⟩
    exact ⟨(hroot clusters hchain).trans hroots.symm, hshows⟩

/-! ### A directory in the root directory -/

/-- A volume whose root directory has one directory with one file. -/
def oneDirectory : File where
  image := Buffer.sparse 81920 [(12, 2), (13, 1), (14, 32), (16, 1), (19, 160), (36, 1), (44, 2),
    (48, 1), (16392, 0xF8), (16393, 0xFF), (16394, 0xFF), (16395, 0x0F), (16396, 0xF8),
    (16397, 0xFF), (16398, 0xFF), (16399, 0x0F), (16896, 65), (16907, 0x10), (16922, 3),
    (17408, 66), (17419, 0x20)]
  pos := 0

section OneDirectory

variable (hroot : boot.rootCl = 2) (hbase : lbaClusterBase boot = 16896)
  (hclust : clusterBytes boot = 512) (hactive : activeFat boot = 16384)
  (hfat : fatBytes boot = 512)
include hbase hclust

theorem oneDirectory_addr : clusterAddr boot 2 = 16896 ∧ clusterAddr boot 3 = 17408 := by
  rw [clusterAddr, clusterAddr, hbase, hclust]
  exact ⟨rfl, rfl⟩

include hactive hfat in
theorem oneDirectory_isChain (cluster : Nat) (hcluster : cluster = 2 ∨ cluster = 3) :
    IsChain oneDirectory.image boot cluster [cluster] := by
  obtain ⟨htwo, hthree⟩ := oneDirectory_addr hbase hclust
  have heof : CLUST_EOFS &&& CLUST32_MASK ≤ storedNext oneDirectory.image boot cluster := by
    rw [storedNext, hactive]
    rcases hcluster with rfl | rfl <;> decide
  refine .last ?_ heof
  rcases hcluster with rfl | rfl
  · exact ⟨by decide, by decide, by rw [hfat]; decide, by rw [htwo, hclust]; decide⟩
  · exact ⟨by decide, by decide, by rw [hfat]; decide, by rw [hthree, hclust]; decide⟩

theorem oneDirectory_entries :
    chainEntries oneDirectory.image boot [2] = [16896] ∧
      chainEntries oneDirectory.image boot [3] = [17408] := by
  obtain ⟨htwo, hthree⟩ := oneDirectory_addr hbase hclust
  rw [chainEntries, chainEntries, List.flatMap_singleton, List.flatMap_singleton, clusterSlots,
    clusterSlots, htwo, hthree, hclust]
  exact ⟨rfl, rfl⟩

/-- The directory is entered at its one cluster. -/
theorem oneDirectory_entered {n' : Nat}
    (hblock : (walker oneDirectory.image boot).children 16896 = [16896])
    (hleads : (walker oneDirectory.image boot).LeadsBelow 16896 16896 n') : n' = 17408 := by
  obtain ⟨before, after, forest, hchildren, -, hroots, -, rfl⟩ := hleads
  have hnone : before = [] := by
    cases before with
    | nil => rfl
    | cons b before =>
        have hlength := congrArg List.length (hblock.symm.trans hchildren)
        simp at hlength
  cases forest with
  | nil =>
      have hcluster : slotCluster oneDirectory.image 16896 = 3 := by rfl
      rw [walker_enter, hcluster, (oneDirectory_addr hbase hclust).2]
      rfl
  | cons b below rest => exact nomatch hroots.trans hnone

include hroot hactive hfat in
theorem oneDirectory_isTreeOf :
    IsTreeOf oneDirectory.image boot (.cons 16896 (.cons 17408 .nil .nil) .nil) := by
  have hchain := oneDirectory_isChain hbase hclust hactive hfat
  obtain ⟨hentries, hentries'⟩ := oneDirectory_entries hbase hclust
  have hdir : Has oneDirectory.image boot 16896 [17408] := by
    rw [← hentries']
    exact .directory ⟨by decide, by decide, by decide⟩ (hchain 3 (Or.inr rfl))
  have hfile : Has oneDirectory.image boot 17408 [] :=
    .leaf fun hlive => absurd hlive.directory (by decide)
  refine ⟨⟨[2], hroot ▸ hchain 2 (Or.inl rfl), hentries ▸ .refl _⟩, ?_, by decide⟩
  exact ⟨⟨_, hdir, .refl _⟩, ⟨⟨_, hfile, .refl _⟩, trivial, trivial⟩, trivial⟩

include hroot hactive hfat in
theorem oneDirectory_blocksFit : BlocksFit oneDirectory.image boot := by
  have hchain := oneDirectory_isChain hbase hclust hactive hfat
  obtain ⟨hentries, hentries'⟩ := oneDirectory_entries hbase hclust
  have hblock : (walker oneDirectory.image boot).children 16896 = [16896] := by
    rw [walker_children]
    rfl
  have hblock' : (walker oneDirectory.image boot).children 17408 = [17408] := by
    rw [walker_children]
    rfl
  constructor
  · intro clusters hclusters
    rw [hroot] at hclusters
    rw [hclusters.unique (hchain 2 (Or.inl rfl)), hbase, hblock, hentries]
  · rw [hbase]
    refine Traversal.shows_of_leads fun a n' hleads => ?_
    obtain rfl := List.mem_singleton.mp (hblock ▸ hleads.mem_children)
    obtain rfl : n' = 17408 := oneDirectory_entered hbase hclust hblock hleads
    refine ⟨fun as hhas => ?_, Traversal.shows_of_not_follow fun a ha => ?_⟩
    · cases hhas with
      | directory hdir hclusters =>
          obtain rfl := hclusters.unique (hchain 3 (Or.inr rfl))
          rw [hblock', hentries']
      | leaf hleaf => exact absurd ⟨by decide, by decide, by decide⟩ hleaf
    · obtain rfl := List.mem_singleton.mp (hblock' ▸ ha)
      rw [walker_follow]
      decide

end OneDirectory

theorem oneDirectory_printed :
    ∃ boot f', readBoot oneDirectory = .ok (boot, f') ∧ PrintsTree f' boot := by
  have hrun : ((readBoot oneDirectory).toOption.map fun r =>
      (r.1.rootCl, lbaClusterBase r.1, clusterBytes r.1, activeFat r.1, fatBytes r.1)) =
        some (2, 16896, 512, 16384, 512) := by rfl
  obtain ⟨⟨boot, f'⟩, hread, hfields⟩ := exists_of_toOption_map_eq hrun
  simp only [Prod.mk.injEq] at hfields
  obtain ⟨hroot, hbase, hclust, hactive, hfat⟩ := hfields
  have himage : f'.image = oneDirectory.image := image_of_readBoot hread
  have htree := oneDirectory_isTreeOf hroot hbase hclust hactive hfat
  have hfit := oneDirectory_blocksFit hroot hbase hclust hactive hfat
  rw [← himage] at htree hfit
  exact ⟨boot, f', hread, (printsTree_iff ⟨_, htree⟩).mpr hfit⟩

/-! ### A root directory that is not at the first cluster -/

theorem isTreeOf_of_one {cluster a : Nat} (hroot : boot.rootCl = cluster)
    (hcluster : IsCluster image boot cluster)
    (heof : CLUST_EOFS &&& CLUST32_MASK ≤ storedNext image boot cluster)
    (hentries : chainEntries image boot [cluster] = [a])
    (hfile : ¬ testBit (slotByte image a 11) 4) :
    IsTreeOf image boot (.cons a .nil .nil) := by
  have hchain : IsChain image boot boot.rootCl [cluster] := by
    rw [hroot]
    exact .last hcluster heof
  have hleaf : ¬ IsLiveDirectory image a := fun hdir => hfile hdir.directory
  exact ⟨⟨[cluster], hchain, hentries ▸ .refl _⟩, ⟨⟨[], .leaf hleaf, .refl _⟩, trivial, trivial⟩,
    List.nodup_singleton a⟩

/-- A volume with one file in its root directory, which is the one cluster given. -/
def oneFile (rootCl : UInt8) : File where
  image := Buffer.sparse 81920 [(12, 2), (13, 1), (14, 32), (16, 1), (19, 160), (36, 1),
    (44, rootCl), (48, 1), (16392, 0xF8), (16393, 0xFF), (16394, 0xFF), (16395, 0x0F),
    (16396, 0xF8), (16397, 0xFF), (16398, 0xFF), (16399, 0x0F),
    (15872 + 512 * rootCl.toNat, 65), (15883 + 512 * rootCl.toNat, 0x20)]
  pos := 0

theorem oneFile_isTreeOf :
    ∃ boot f', readBoot (oneFile 3) = .ok (boot, f') ∧ f'.image = (oneFile 3).image ∧
      lbaClusterBase boot = 16896 ∧ IsTreeOf f'.image boot (.cons 17408 .nil .nil) := by
  have hrun : ((readBoot (oneFile 3)).toOption.map fun r =>
      (r.1.rootCl, lbaClusterBase r.1, clusterBytes r.1, activeFat r.1, fatBytes r.1)) =
        some (3, 16896, 512, 16384, 512) := by rfl
  obtain ⟨⟨boot, f'⟩, hread, hfields⟩ := exists_of_toOption_map_eq hrun
  simp only [Prod.mk.injEq] at hfields
  obtain ⟨hroot, hbase, hclust, hactive, hfat⟩ := hfields
  have himage : f'.image = (oneFile 3).image := image_of_readBoot hread
  have haddr : clusterAddr boot 3 = 17408 := by
    rw [clusterAddr, hbase, hclust]
    rfl
  have hcluster : IsCluster (oneFile 3).image boot 3 :=
    ⟨by decide, by decide, by rw [hfat]; decide, by rw [haddr, hclust]; decide⟩
  have heof : CLUST_EOFS &&& CLUST32_MASK ≤ storedNext (oneFile 3).image boot 3 := by
    rw [storedNext, hactive]
    decide
  have hentries : chainEntries (oneFile 3).image boot [3] = [17408] := by
    rw [chainEntries, List.flatMap_singleton, clusterSlots, haddr, hclust]
    rfl
  refine ⟨boot, f', hread, himage, hbase, ?_⟩
  rw [himage]
  exact isTreeOf_of_one hroot hcluster heof hentries (by decide)

/-- The root directory is the second cluster, and the block of the first is read. -/
theorem oneFile_not_printed : ∃ boot f', readBoot (oneFile 3) = .ok (boot, f') ∧
    IsTreeOf f'.image boot (.cons 17408 .nil .nil) ∧ ¬ PrintsTree f' boot := by
  obtain ⟨boot, f', hread, himage, hbase, htree⟩ := oneFile_isTreeOf
  have hblock : (walker (oneFile 3).image boot).children 16896 = [] := by
    rw [walker_children]
    rfl
  refine ⟨boot, f', hread, htree, fun hprints => ?_⟩
  obtain ⟨forest, hforest, htree'⟩ := printsTree_iff_isForestOf.mp hprints
  rw [himage, hbase] at hforest
  have hroots := (htree.iff_perm.mp htree').2
  rw [hforest.1, hblock] at hroots
  exact absurd hroots.length_eq (by decide)

end CodeSlices.Fat
