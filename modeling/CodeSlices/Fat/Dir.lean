import CodeSlices.Fat.Geometry
import CodeSlices.Fat.LongName
import CodeSlices.Lib.Traversal

/-!
# Listing directories

`F.read_dir` of `lua/fat.lua`. A directory is read as one block of 64 entries, wherever its chain
goes on, and `F.read_dir` calls itself for each subdirectory while it goes through the block; the
fuel bounds how deep the calls are nested. Where an address is negative the seek fails and the block
is read where the file stands. `F.read_dir` is a traversal of the blocks of the image.
-/

namespace CodeSlices.Fat

def FLAG_DELETE : UInt8 := 0xE5

structure Dir where
  name : List UInt8
  deleted : Bool

/-- A line that is printed, with the place of its entry in the image. -/
structure Line where
  row : Nat
  isDir : Bool
  longnameIdx : Nat
  cluster : Nat
  dir : Dir
  dirDepth : Nat
  addr : Nat

/-- What a call returns, what it has printed and the file after it. -/
structure Listing where
  items : Option (List Dir)
  lines : List Line
  file : File

inductive DirError
  | lua (e : LuaError)
  | outOfFuel
  deriving DecidableEq

def dirEntrySize : Nat := 32

def blockSize : Nat := 64 * dirEntrySize

/-- `string.sub(buffer, idx, idx + 11 - 1)` -/
def shortName (buffer : Buffer) (idx : Nat) : List UInt8 :=
  (List.range' idx 11).filterMap (stringByte buffer)

def isDotDirName (name : List UInt8) : Bool := name.head? == some 46

/-- The slots of a block that are left; the block begins at `base`. -/
def slotLoop (boot : Boot) (buffer : Buffer) (base dirDepth : Nat)
    (readSub : Int → File → Except DirError Listing) :
    Nat → Nat → Nat → File → Except DirError (List Dir × List Line × File)
  | 0, _, _, f => .ok ([], [], f)
  | slots + 1, idx, longnameIdx, f =>
      if stringByte buffer idx = some 0 then .ok ([], [], f)
      else
        let attr := (bytes buffer (idx + 11 - 1) 1).toNat
        if attr &&& 0x0F = 0x0F then
          slotLoop boot buffer base dirDepth readSub slots (idx + dirEntrySize) (longnameIdx + 1) f
        else do
          let short := shortName buffer idx
          let isDir := testBit attr 4
          let isDotdotDir := isDotDirName short
          let name ←
            (if longnameIdx > 0 then (parseLongName buffer idx).mapError .lua else .ok short)
          let dir : Dir := ⟨name, short.head? == some FLAG_DELETE⟩
          let cllow := (bytes buffer (idx + 0x1A - 1) 2).toNat
          let clhig := (bytes buffer (idx + 0x14 - 1) 2).toNat
          let cluster := cllow + clhig <<< 16
          let line : Line :=
            ⟨(idx + 31) / dirEntrySize, isDir, longnameIdx, cluster, dir, dirDepth, base + idx - 1⟩
          let sub ←
            (if isDir && !isDotdotDir then readSub (clusterAddr boot cluster) f
            else .ok ⟨none, [], f⟩)
          let (items, lines, f) ←
            slotLoop boot buffer base dirDepth readSub slots (idx + dirEntrySize) 0 sub.file
          .ok (dir :: items, (if isDotdotDir then [] else [line]) ++ (sub.lines ++ lines), f)

/-- `F.read_dir(boot, dir_addr, depth_n)`, with calls nested no deeper than the fuel. -/
def readDir (boot : Boot) : Nat → File → Option Int → Nat → Except DirError Listing
  | 0, _, _, _ => .error .outOfFuel
  | fuel + 1, f, dirAddr, depthN =>
      let offset := dirAddr.getD (lbaClusterBase boot)
      let dirDepth := if dirAddr.isSome then depthN else 0
      match read f offset blockSize with
      | (none, f) => .ok ⟨none, [], f⟩
      | (some buffer, f) => do
          let (items, lines, f) ← slotLoop boot buffer (f.pos - buffer.size) dirDepth
            (fun addr f => readDir boot fuel f (some addr) (dirDepth + 1))
            ((buffer.size + 31) / dirEntrySize) 1 0 f
          .ok ⟨some items, lines, f⟩

/-! ### The traversal -/

def slotAttr (image : Buffer) (a : Nat) : Nat := (bytes image (a + 11) 1).toNat

def slotCluster (image : Buffer) (a : Nat) : Nat :=
  (bytes image (a + 0x1A) 2).toNat + (bytes image (a + 0x14) 2).toNat <<< 16

/-- The entries that are printed, of some slots from an address on. -/
def shown (image : Buffer) : Nat → Nat → List Nat
  | 0, _ => []
  | slots + 1, a =>
      if image.get a = 0 then []
      else if slotAttr image a &&& 0x0F = 0x0F ∨ image.get a = 46 then
        shown image slots (a + dirEntrySize)
      else a :: shown image slots (a + dirEntrySize)

/-- The bytes that are read of a block. -/
def blockBytes (image : Buffer) (p : Nat) : Nat := min blockSize (image.size - p)

/-- Where the block of a call begins, with the file at `pos` before. -/
def startOf (boot : Boot) (dirAddr : Option Int) (pos : Nat) : Nat :=
  let offset := dirAddr.getD (lbaClusterBase boot)
  if 0 ≤ offset then offset.toNat else pos

/-- The blocks by their places in the image; the state is the position of the file. -/
def walker (image : Buffer) (boot : Boot) : Traversal Nat Nat Nat where
  children p := shown image ((blockBytes image p + 31) / dirEntrySize) p
  follow a := testBit (slotAttr image a) 4
  enter a pos := startOf boot (some (clusterAddr boot (slotCluster image a))) pos
  start p := p + blockBytes image p

variable {image buffer : Buffer} {boot : Boot} {a pos : Nat}

theorem walker_children {p : Nat} : (walker image boot).children p =
    shown image ((blockBytes image p + 31) / dirEntrySize) p := by dsimp only [walker]

theorem walker_start {p : Nat} : (walker image boot).start p = p + blockBytes image p := by
  dsimp only [walker]

theorem walker_follow : (walker image boot).follow a = testBit (slotAttr image a) 4 := rfl

theorem walker_enter : (walker image boot).enter a pos =
    startOf boot (some (clusterAddr boot (slotCluster image a))) pos := by dsimp only [walker]

theorem entryLoop_ok {entries i : Nat} (hentries : 32 * entries < i + 32)
    (hsize : i ≤ buffer.size) : ∃ name, entryLoop buffer entries i = .ok name := by
  induction entries generalizing i with
  | zero => exact ⟨[], rfl⟩
  | succ entries ih =>
      have hbyte : stringByte buffer i = some (buffer.get (i - 1)) := if_pos (by omega)
      obtain ⟨items, hitems⟩ := ih (i := i - 32) (by omega) (by omega)
      rw [entryLoop, hbyte, hitems]
      dsimp only
      split_ifs
      · exact ⟨_, rfl⟩
      · exact ⟨_, rfl⟩

/-- The bytes before a short entry are all there. -/
theorem parseLongName_ok {idx : Nat} (hsize : idx ≤ buffer.size) :
    ∃ name, parseLongName buffer idx = .ok name := by
  by_cases hfirst : idx ≤ 32
  · have hnone : (idx - 1) / 32 = 0 := Nat.div_eq_of_lt (by omega)
    exact ⟨[], by rw [parseLongName, hnone]; rfl⟩
  · exact entryLoop_ok (by omega) (by omega)

theorem bytes_block (offset : Nat) {n p k : Nat} (hk : 32 * k < blockBytes image p) (hn : n ≤ 8)
    (hfield : offset + n + 1 < 32) :
    (bytes (image.slice p blockSize) (32 * k + offset) n).toNat =
      (bytes image (p + 32 * k + offset) n).toNat := by
  have hsize : (image.slice p blockSize).size = min 2048 (image.size - p) := rfl
  have hblock : blockBytes image p = min 2048 (image.size - p) := rfl
  rw [toNat_bytes hn, toNat_bytes hn, littleEndian_slice, hsize, Nat.add_assoc p]
  exact if_congr (by omega) rfl rfl

/-- What is printed is the forest, and the file stands where the traversal ends. -/
def Prints (image : Buffer) (depth : Nat) (lines : List Line) (f : File)
    (result : Forest Nat × Nat) : Prop :=
  f = ⟨image, result.2⟩ ∧
    lines.map (fun line => (line.dirDepth, line.addr)) = result.1.preorder depth

/-- A call ends as the traversal does: both without fuel, or with a forest that was printed. -/
def Simulates (image : Buffer) (depth : Nat) (call : Except DirError Listing)
    (visit : Option (Forest Nat × Nat)) : Prop :=
  (visit = none ∧ call = .error .outOfFuel) ∨
    ∃ listing result, visit = some result ∧ call = .ok listing ∧
      Prints image depth listing.lines listing.file result

theorem stringByte_block {p k : Nat} (hk : 32 * k < blockBytes image p) :
    stringByte (image.slice p blockSize) (32 * k + 1) = some (image.get (p + 32 * k)) :=
  if_pos ⟨Nat.le_add_left _ _, hk⟩

theorem head?_shortName {p k : Nat} (hk : 32 * k < blockBytes image p) :
    (shortName (image.slice p blockSize) (32 * k + 1)).head? = some (image.get (p + 32 * k)) := by
  rw [shortName, List.range'_succ, List.filterMap_cons_some (stringByte_block hk)]
  rfl

/-- What the loop does at a slot with an entry. -/
theorem slotLoop_entry (boot : Boot) (depth : Nat) (readSub : Int → File → Except DirError Listing)
    (slots : Nat) {p k : Nat} (hk : 32 * k < blockBytes image p) (hend : image.get (p + 32 * k) ≠ 0)
    (hlong : slotAttr image (p + 32 * k) &&& 0x0F ≠ 0x0F) (longnameIdx : Nat) (f : File) :
    ∃ dir line, line.dirDepth = depth ∧ line.addr = p + 32 * k ∧
      slotLoop boot (image.slice p blockSize) p depth readSub (slots + 1) (32 * k + 1) longnameIdx
          f =
        (if testBit (slotAttr image (p + 32 * k)) 4 && !(image.get (p + 32 * k) == 46) then
          readSub (clusterAddr boot (slotCluster image (p + 32 * k))) f
        else .ok ⟨none, [], f⟩) >>= fun sub =>
          slotLoop boot (image.slice p blockSize) p depth readSub slots (32 * (k + 1) + 1) 0
            sub.file >>= fun rest =>
              .ok (dir :: rest.1, (if image.get (p + 32 * k) == 46 then [] else [line]) ++
                (sub.lines ++ rest.2.1), rest.2.2) := by
  have hattr : (bytes (image.slice p blockSize) (32 * k + 1 + 11 - 1) 1).toNat =
      slotAttr image (p + 32 * k) := bytes_block 11 hk (by decide) (by decide)
  have hcluster : (bytes (image.slice p blockSize) (32 * k + 1 + 0x1A - 1) 2).toNat +
      (bytes (image.slice p blockSize) (32 * k + 1 + 0x14 - 1) 2).toNat <<< 16 =
        slotCluster image (p + 32 * k) := by
    have hlow := bytes_block 0x1A (n := 2) hk (by decide) (by decide)
    have hhigh := bytes_block 0x14 (n := 2) hk (by decide) (by decide)
    exact congrArg₂ (fun low high => low + high <<< 16) hlow hhigh
  have hdot : isDotDirName (shortName (image.slice p blockSize) (32 * k + 1)) =
      (image.get (p + 32 * k) == 46) := by
    rw [isDotDirName, head?_shortName hk]
    rfl
  have hidx : 32 * k + 1 + dirEntrySize = 32 * (k + 1) + 1 := by
    rw [dirEntrySize]
    omega
  obtain ⟨long, hlongName⟩ : ∃ long, parseLongName (image.slice p blockSize) (32 * k + 1) =
      .ok long := parseLongName_ok hk
  rw [slotLoop, stringByte_block hk, if_neg (fun h => hend (Option.some.inj h))]
  dsimp only
  rw [hattr, if_neg hlong, hcluster, hdot, hidx, hlongName]
  by_cases hname : longnameIdx > 0
  · rw [if_pos hname]
    refine ⟨_, _, ?_, ?_, rfl⟩ <;> rfl
  · rw [if_neg hname]
    refine ⟨_, _, ?_, ?_, rfl⟩ <;> rfl

theorem Prints.cons {depth : Nat} {line : Line} {below lines : List Line} {f f' : File}
    {result result' : Forest Nat × Nat} (hdepth : line.dirDepth = depth)
    (hbelow : Prints image (depth + 1) below f result)
    (hrest : Prints image depth lines f' result') :
    Prints image depth ([line] ++ (below ++ lines)) f'
      (.cons line.addr result.1 result'.1, result'.2) := by
  refine ⟨hrest.1, ?_⟩
  rw [List.map_append, List.map_append, hbelow.2, hrest.2, List.map_singleton, hdepth]
  rfl

/-- A loop ends as a walk does. -/
def LoopSimulates (image : Buffer) (depth : Nat)
    (loop : Except DirError (List Dir × List Line × File)) (walk : Option (Forest Nat × Nat)) :
    Prop :=
  (walk = none ∧ loop = .error .outOfFuel) ∨
    ∃ items lines f result, walk = some result ∧ loop = .ok (items, lines, f) ∧
      Prints image depth lines f result

theorem loopSimulates_nil (image : Buffer) (depth pos : Nat) :
    LoopSimulates image depth (.ok ([], [], ⟨image, pos⟩)) (some (.nil, pos)) :=
  Or.inr ⟨[], [], _, _, rfl, rfl, rfl, rfl⟩

/-- An entry that is not printed and not followed. -/
theorem LoopSimulates.dot {depth : Nat} {loop : Except DirError (List Dir × List Line × File)}
    {walk : Option (Forest Nat × Nat)} (hloop : LoopSimulates image depth loop walk) (dir : Dir) :
    LoopSimulates image depth (loop >>= fun rest => .ok (dir :: rest.1, rest.2.1, rest.2.2))
      walk := by
  rcases hloop with ⟨hnone, rfl⟩ | ⟨items, lines, f, result, hsome, rfl, hprints⟩
  · exact Or.inl ⟨hnone, rfl⟩
  · exact Or.inr ⟨dir :: items, lines, f, result, hsome, rfl, hprints⟩

/-- An entry that is printed, then what is below it, then the rest. -/
theorem Simulates.entry {depth : Nat} {call : Except DirError Listing}
    {visit : Option (Forest Nat × Nat)} (hcall : Simulates image (depth + 1) call visit)
    {loop : File → Except DirError (List Dir × List Line × File)}
    {walk : Nat → Option (Forest Nat × Nat)}
    (hloop : ∀ pos, LoopSimulates image depth (loop ⟨image, pos⟩) (walk pos)) (dir : Dir)
    {line : Line} (hdepth : line.dirDepth = depth) :
    LoopSimulates image depth
      (call >>= fun sub => loop sub.file >>= fun rest =>
        .ok (dir :: rest.1, [line] ++ (sub.lines ++ rest.2.1), rest.2.2))
      (visit.bind fun below => (walk below.2).map fun rest =>
        (.cons line.addr below.1 rest.1, rest.2)) := by
  rcases hcall with ⟨rfl, rfl⟩ | ⟨⟨found, printed, f⟩, below, rfl, rfl, rfl, hlines⟩
  · exact Or.inl ⟨rfl, rfl⟩
  · rcases hloop below.2 with ⟨hnone, herror⟩ | ⟨items, lines, f, rest, hrest, hok, hprints⟩
    · refine Or.inl ⟨congrArg (Option.map _) hnone, ?_⟩
      rw [ok_bind, herror, error_bind]
    · refine Or.inr ⟨dir :: items, _, f, _, congrArg (Option.map _) hrest, ?_,
        Prints.cons hdepth ⟨rfl, hlines⟩ hprints⟩
      rw [ok_bind, hok, ok_bind]

/-- What is below an entry is a call, or nothing. -/
theorem simulates_under {depth pos : Nat} {readSub : Int → File → Except DirError Listing}
    {visit : Nat → Option (Forest Nat × Nat)}
    (hsub : ∀ addr pos, Simulates image depth (readSub addr ⟨image, pos⟩)
      (visit (startOf boot (some addr) pos))) (a : Nat) :
    Simulates image depth
      (if testBit (slotAttr image a) 4 then
        readSub (clusterAddr boot (slotCluster image a)) ⟨image, pos⟩
      else .ok ⟨none, [], ⟨image, pos⟩⟩) ((walker image boot).under visit a pos) := by
  by_cases hfollow : testBit (slotAttr image a) 4
  · rw [if_pos hfollow, Traversal.under_of_follow (walker_follow.trans hfollow), walker_enter]
    exact hsub (clusterAddr boot (slotCluster image a)) pos
  · rw [if_neg hfollow, Traversal.under_of_not_follow (walker_follow ▸ hfollow)]
    exact Or.inr ⟨_, (.nil, pos), rfl, rfl, rfl, rfl⟩

/-- The loop over the slots of a block goes through its entries. -/
theorem slotLoop_simulates (readSub : Int → File → Except DirError Listing) {p depth : Nat}
    {visit : Nat → Option (Forest Nat × Nat)}
    (hsub : ∀ addr pos, Simulates image (depth + 1) (readSub addr ⟨image, pos⟩)
      (visit (startOf boot (some addr) pos)))
    {slots k : Nat} (hslots : k + slots = (blockBytes image p + 31) / 32) (longnameIdx pos : Nat) :
    LoopSimulates image depth
      (slotLoop boot (image.slice p blockSize) p depth readSub slots (32 * k + 1) longnameIdx
        ⟨image, pos⟩)
      ((walker image boot).walk visit (shown image slots (p + 32 * k)) pos) := by
  induction slots generalizing k longnameIdx pos with
  | zero => exact loopSimulates_nil image depth pos
  | succ slots ih =>
      have hk : 32 * k < blockBytes image p := by omega
      have hnext := ih (k := k + 1) (by omega)
      have hattr : (bytes (image.slice p blockSize) (32 * k + 1 + 11 - 1) 1).toNat =
        slotAttr image (p + 32 * k) := bytes_block 11 hk (by decide) (by decide)
      rw [shown]
      by_cases hend : image.get (p + 32 * k) = 0
      · rw [slotLoop, stringByte_block hk, hend, if_pos rfl, if_pos rfl]
        exact loopSimulates_nil image depth pos
      by_cases hlong : slotAttr image (p + 32 * k) &&& 0x0F = 0x0F
      · rw [slotLoop, stringByte_block hk, if_neg (fun h => hend (Option.some.inj h))]
        dsimp only
        rw [hattr, if_pos hlong, if_neg hend, if_pos (Or.inl hlong)]
        exact hnext (longnameIdx + 1) pos
      obtain ⟨dir, line, hdepth, haddr, hloop⟩ := slotLoop_entry boot depth readSub slots hk
        hend hlong longnameIdx ⟨image, pos⟩
      rw [hloop, if_neg hend]
      by_cases hdot : image.get (p + 32 * k) = 46
      · rw [if_pos (Or.inr hdot), hdot, beq_self_eq_true, Bool.not_true, Bool.and_false,
          if_neg Bool.false_ne_true, if_pos rfl]
        exact (hnext 0 pos).dot dir
      · have hshown : ¬ (slotAttr image (p + 32 * k) &&& 0x0F = 0x0F ∨
            image.get (p + 32 * k) = 46) := not_or.mpr ⟨hlong, hdot⟩
        have hstep : line.addr + dirEntrySize = p + 32 * (k + 1) := by
          rw [haddr, dirEntrySize]
          omega
        rw [if_neg hshown, beq_false_of_ne hdot, Bool.not_false, Bool.and_true,
          if_neg Bool.false_ne_true, Traversal.walk, ← haddr, hstep]
        exact (simulates_under hsub line.addr).entry (hnext 0) dir hdepth

theorem read_startOf (dirAddr : Option Int) (pos n : Nat) :
    read ⟨image, pos⟩ (dirAddr.getD (lbaClusterBase boot)) n =
      File.read ⟨image, startOf boot dirAddr pos⟩ n := by
  rw [read, File.seek, startOf]
  split_ifs <;> rfl

theorem visit_of_end {p fuel : Nat} (hp : image.size ≤ p) :
    (walker image boot).visit (fuel + 1) p = some (.nil, p) := by
  have hnone : blockBytes image p = 0 := by
    rw [blockBytes, Nat.sub_eq_zero_of_le hp, Nat.min_zero]
  rw [Traversal.visit, walker_children, walker_start, hnone]
  rfl

/-- `F.read_dir` goes through the blocks as the traversal does. -/
theorem readDir_simulates (boot : Boot) (image : Buffer) (fuel : Nat) (dirAddr : Option Int)
    (depthN pos : Nat) :
    Simulates image (if dirAddr.isSome then depthN else 0)
      (readDir boot fuel ⟨image, pos⟩ dirAddr depthN)
      ((walker image boot).visit fuel (startOf boot dirAddr pos)) := by
  induction fuel generalizing dirAddr depthN pos with
  | zero => exact Or.inl ⟨rfl, rfl⟩
  | succ fuel ih =>
      rw [readDir, read_startOf]
      dsimp only
      generalize startOf boot dirAddr pos = p
      generalize (if dirAddr.isSome then depthN else 0) = dirDepth
      by_cases hp : p < image.size
      · have hcall : ∀ addr pos, Simulates image (dirDepth + 1)
            (readDir boot fuel ⟨image, pos⟩ (some addr) (dirDepth + 1))
            ((walker image boot).visit fuel (startOf boot (some addr) pos)) :=
          fun addr pos => ih (some addr) (dirDepth + 1) pos
        have hloop := slotLoop_simulates (p := p)
          (fun addr f => readDir boot fuel f (some addr) (dirDepth + 1)) hcall (Nat.zero_add _) 0
            (p + blockBytes image p)
        rw [Nat.mul_zero, Nat.add_zero, Nat.zero_add] at hloop
        have hsize : (image.slice p blockSize).size = blockBytes image p := by
          rw [Buffer.slice, blockBytes]
        have hbase : p + (image.slice p blockSize).size - (image.slice p blockSize).size = p :=
          Nat.add_sub_cancel p _
        rw [File.read, if_pos hp]
        dsimp only
        rw [hbase, hsize, Traversal.visit, walker_children, walker_start]
        rcases hloop with ⟨hnone, herror⟩ | ⟨items, lines, f, result, hsome, hok, hprints⟩
        · rw [dirEntrySize, herror, error_bind]
          exact Or.inl ⟨hnone, rfl⟩
        · rw [dirEntrySize, hok, ok_bind]
          exact Or.inr ⟨⟨some items, lines, f⟩, result, hsome, rfl, hprints⟩
      · rw [File.read, if_neg hp, visit_of_end (Nat.le_of_not_lt hp)]
        exact Or.inr ⟨_, (.nil, p), rfl, rfl, rfl, rfl⟩

end CodeSlices.Fat
