import Mathlib.Data.List.GetD
import Mathlib.Tactic.Ring
import CodeSlices.Lib.Except
import CodeSlices.Mandelbrot.Render

/-!
# The picture put together

The tiles are pasted where their workers computed them if each comes from its own place. Its number
is `(+ (* r 2) c)`, which is the place of row `r` and column `c` with two columns only.
-/

namespace CodeSlices.Mandelbrot

variable {idx : ℚ → ℚ → Nat} {n m k : Nat}

/-! ### Tile bounds -/

theorem inRange_natCast (first len : Nat) :
    inRange (first : ℚ) ((first + len : Nat) : ℚ) =
      (List.range len).map fun (i : Nat) => ((first + i : Nat) : ℚ) := by
  have hlen : (((first + len : Nat) : ℚ) - first) = ((len : ℤ) : ℚ) := by
    push_cast
    ring
  rw [inRange, hlen, Int.ceil_intCast, Int.toNat_natCast]
  simp only [Nat.cast_add]

theorem tileBound_eq (hn : 0 < n) (r m : Nat) :
    (r : ℚ) * (((n * m : Nat) : ℚ) / n) = ((r * m : Nat) : ℚ) := by
  have hne : (n : ℚ) ≠ 0 := Nat.cast_ne_zero.mpr hn.ne'
  push_cast
  field_simp

theorem tileEnd_eq (hn : 0 < n) (r m : Nat) :
    ((r : ℚ) + 1) * (((n * m : Nat) : ℚ) / n) = ((r * m + m : Nat) : ℚ) := by
  rw [← Nat.add_one_mul, ← tileBound_eq hn (r + 1) m, Nat.cast_add_one]

/-- The lines of a tile, as its worker computes them. -/
def tileLines (idx : ℚ → ℚ → Nat) (m k r c : Nat) : Lines :=
  (List.range k).map fun j => (List.range m).map fun i =>
    idx ((r * m + i : Nat) : ℚ) ((c * k + j : Nat) : ℚ)

/-! ### One line -/

theorem bytesCopy_natCast {dest : Bytes} {start : Nat} {src : List UInt8}
    (hsize : start + src.length ≤ dest.size) :
    bytesCopy dest (start : ℚ) src = .ok { dest with
      get := fun i =>
        if start ≤ i ∧ i < start + src.length then src.getD (i - start) 0 else dest.get i } := by
  have hnum : ((start : ℚ).num).toNat = start := by rw [Rat.num_natCast, Int.toNat_natCast]
  have hnonneg : 0 ≤ (start : ℚ).num := by
    rw [Rat.num_natCast]
    exact Int.natCast_nonneg _
  rw [bytesCopy, hnum, if_pos ⟨Rat.den_natCast start, hnonneg, hsize⟩]

theorem colors_getElem? {i : Nat} (hi : i < colorIdxMax) : colors[i]? = some (color i) := by
  rw [colors, List.getElem?_map, List.getElem?_range hi, Option.map_some]

theorem lineData_eq {row : List Nat} (hline : ∀ i ∈ row, i < colorIdxMax) :
    lineData row = .ok (row.flatMap color) := by
  induction row with
  | nil => rfl
  | cons i row ih =>
      obtain ⟨hi, hline⟩ := List.forall_mem_cons.mp hline
      rw [lineData, colors_getElem? hi, ih hline]
      rfl

theorem length_flatMap_color (row : List Nat) : (row.flatMap color).length = 4 * row.length := by
  induction row with
  | nil => rfl
  | cons i row ih =>
      rw [List.flatMap_cons, List.length_append, ih, List.length_cons]
      simp only [color, List.length_cons, List.length_nil]
      ring

/-- The byte of a pixel in the bytes of a line. -/
theorem getD_flatMap_color {row : List Nat} {i b : Nat} (hi : i < row.length) (hb : b < 4) :
    (row.flatMap color).getD (4 * i + b) 0 = (color row[i]).getD b 0 := by
  induction row generalizing i with
  | nil => exact absurd hi (Nat.not_lt_zero i)
  | cons first row ih =>
      rw [List.flatMap_cons]
      cases i with
      | zero =>
          rw [Nat.mul_zero, Nat.zero_add, List.getD_append _ _ _ _ hb]
          rfl
      | succ i =>
          have hshift : 4 * (i + 1) + b - (color first).length = 4 * i + b := by
            simp only [color, List.length_cons, List.length_nil]
            omega
          have hpast : (color first).length ≤ 4 * (i + 1) + b := by
            simp only [color, List.length_cons, List.length_nil]
            omega
          rw [List.getD_append_right _ _ _ _ hpast, hshift, ih (Nat.lt_of_succ_lt_succ hi)]
          rfl

/-- Which bytes of the picture a line of a tile covers. -/
theorem covers_iff {w x y X Y m b : Nat} (hx : x < w) (hX : X + m ≤ w) (hb : b < 4) :
    (4 * (Y * w + X) ≤ 4 * (y * w + x) + b ∧ 4 * (y * w + x) + b < 4 * (Y * w + X) + 4 * m) ↔
      y = Y ∧ X ≤ x ∧ x < X + m := by
  rcases Nat.lt_trichotomy y Y with hlt | rfl | hgt
  · have hrow : y * w + w ≤ Y * w := Nat.succ_mul y w ▸ Nat.mul_le_mul_right w hlt
    exact iff_of_false (by omega) (by omega)
  · omega
  · have hrow : Y * w + w ≤ y * w := Nat.succ_mul Y w ▸ Nat.mul_le_mul_right w hgt
    exact iff_of_false (by omega) (by omega)

/-! ### One tile -/

/-- What a tile has for a pixel of it. -/
def pixelOf (lines : Lines) (i j : Nat) : Option Nat := lines[j]?.bind fun row => row[i]?

/-- Lines that fit into a tile and have colours. -/
def LinesFit (m : Nat) (lines : Lines) : Prop :=
  ∀ row ∈ lines, row.length = m ∧ ∀ i ∈ row, i < colorIdxMax

/-- The byte of a pixel, if there is one, and else what was there. -/
def byteOf (pixel : Option Nat) (b : Nat) (old : UInt8) : UInt8 :=
  match pixel with
  | some i => (color i).getD b 0
  | none => old

theorem lineLoop_nil (w : Nat) (xs ys : ℚ) (rows : List ℚ) (bytes : Bytes) :
    lineLoop w xs ys rows [] bytes = .ok bytes := by
  cases rows <;> rfl

/-- A line of a tile is copied to the pixels it has colours for. -/
theorem copyLine_spec {w h X Y : Nat} (hX : X + m ≤ w) (hY : Y < h) {row : List Nat}
    (hlength : row.length = m) {bytes : Bytes} (hsize : bytes.size = w * h * bpp) :
    ∃ bytes', bytesCopy bytes ((4 * (Y * w + X) : Nat) : ℚ) (row.flatMap color) = .ok bytes' ∧
      bytes'.size = w * h * bpp ∧ ∀ x < w, ∀ y, ∀ b < bpp,
        bytes'.get (bpp * (y * w + x) + b) =
          if y = Y ∧ X ≤ x ∧ x < X + m then
            byteOf row[x - X]? b (bytes.get (bpp * (y * w + x) + b))
          else bytes.get (bpp * (y * w + x) + b) := by
  have hdata : (row.flatMap color).length = 4 * m := by rw [length_flatMap_color, hlength]
  have hrow : Y * w + w ≤ w * h := by
    rw [← Nat.add_one_mul, Nat.mul_comm w]
    exact Nat.mul_le_mul_right w hY
  have hinside : 4 * (Y * w + X) + (row.flatMap color).length ≤ bytes.size := by
    rw [hdata, hsize, bpp]
    omega
  refine ⟨_, bytesCopy_natCast hinside, hsize, fun x hx y b hb => ?_⟩
  have hcovers := covers_iff (y := y) (Y := Y) hx hX hb
  rw [bpp] at hb ⊢
  dsimp only
  rw [hdata]
  by_cases hin : y = Y ∧ X ≤ x ∧ x < X + m
  · obtain ⟨rfl, hle, hlt⟩ := hin
    have hoffset : 4 * (y * w + x) + b - 4 * (y * w + X) = 4 * (x - X) + b := by omega
    have hi : x - X < row.length := by omega
    rw [if_pos (hcovers.mpr ⟨rfl, hle, hlt⟩), if_pos ⟨rfl, hle, hlt⟩, hoffset,
      getD_flatMap_color hi hb, List.getElem?_eq_getElem hi]
    rfl
  · rw [if_neg (fun h => hin (hcovers.mp h)), if_neg hin]

theorem linePos_eq (w X Y j : Nat) :
    ((w : ℚ) * Y + X) * bpp + w * (((Y + j : Nat) : ℚ) - Y) * bpp =
      ((4 * ((Y + j) * w + X) : Nat) : ℚ) := by
  push_cast [bpp]
  ring

theorem lineLoop_spec {w h X Y : Nat} (hX : X + m ≤ w) {lines : Lines} (hlines : LinesFit m lines)
    {j rows : Nat} (hY : Y + j + rows ≤ h) {bytes : Bytes} (hsize : bytes.size = w * h * bpp) :
    ∃ bytes', lineLoop w (X : ℚ) (Y : ℚ)
        ((List.range' j rows).map fun (j : Nat) => ((Y + j : Nat) : ℚ)) lines bytes = .ok bytes' ∧
      bytes'.size = w * h * bpp ∧ ∀ x < w, ∀ y, ∀ b < bpp,
        bytes'.get (bpp * (y * w + x) + b) =
          if X ≤ x ∧ x < X + m ∧ Y + j ≤ y ∧ y < Y + j + rows then
            byteOf (pixelOf lines (x - X) (y - (Y + j))) b (bytes.get (bpp * (y * w + x) + b))
          else bytes.get (bpp * (y * w + x) + b) := by
  induction lines generalizing j rows bytes with
  | nil =>
      refine ⟨bytes, lineLoop_nil _ _ _ _ _, hsize, fun x _ y b _ => ?_⟩
      split_ifs <;> rfl
  | cons row lines ih =>
      cases rows with
      | zero =>
          refine ⟨bytes, rfl, hsize, fun x _ y b _ => ?_⟩
          rw [if_neg (by omega)]
      | succ rows =>
          obtain ⟨⟨hlength, hcolors⟩, hlines⟩ := List.forall_mem_cons.mp hlines
          obtain ⟨bytes₁, hcopy, hsize₁, hget₁⟩ :=
            copyLine_spec hX (by omega : Y + j < h) hlength hsize
          obtain ⟨bytes₂, hloop, hsize₂, hget₂⟩ :=
            ih hlines (by omega : Y + (j + 1) + rows ≤ h) hsize₁
          refine ⟨bytes₂, ?_, hsize₂, fun x hx y b hb => ?_⟩
          · rw [List.range'_succ, List.map_cons, lineLoop, lineData_eq hcolors]
            rw [ok_bind, linePos_eq, hcopy, ok_bind, hloop]
          · rw [hget₂ x hx y b hb, hget₁ x hx y b hb]
            rcases Nat.lt_trichotomy y (Y + j) with hlt | rfl | hgt
            · rw [if_neg (by omega), if_neg (by omega), if_neg (by omega)]
            · rw [if_neg (by omega), Nat.sub_self]
              exact if_congr (by omega) rfl rfl
            · obtain ⟨d, rfl⟩ := Nat.exists_eq_add_of_lt hgt
              have hnext : Y + j + d + 1 - (Y + (j + 1)) = d := by omega
              have hhere : Y + j + d + 1 - (Y + j) = d + 1 := by omega
              have hnot : ¬ (Y + j + d + 1 = Y + j ∧ X ≤ x ∧ x < X + m) := by omega
              rw [if_neg hnot, hnext, hhere]
              exact if_congr (by omega) rfl rfl

/-- A message of lines that fit is copied to the tile it is got for. -/
theorem bloop_spec {w h X Y rows pl : Nat} (hX : X + m ≤ w) (hY : Y + rows ≤ h) {s : State}
    {allRes : Lines} {rest : List Lines} (hpl : s.pls[pl]? = some (allRes :: rest))
    (hlines : LinesFit m allRes) (hsize : s.bytes.size = w * h * bpp) :
    ∃ bytes, bloop w (X : ℚ) (Y : ℚ) ((Y + rows : Nat) : ℚ) pl s = .ok ⟨s.pls.set pl rest, bytes⟩ ∧
      bytes.size = w * h * bpp ∧ ∀ x < w, ∀ y, ∀ b < bpp,
        bytes.get (bpp * (y * w + x) + b) =
          if X ≤ x ∧ x < X + m ∧ Y ≤ y ∧ y < Y + rows then
            byteOf (pixelOf allRes (x - X) (y - Y)) b (s.bytes.get (bpp * (y * w + x) + b))
          else s.bytes.get (bpp * (y * w + x) + b) := by
  obtain ⟨bytes, hloop, hsize', hget⟩ := lineLoop_spec (j := 0) hX hlines hY hsize
  refine ⟨bytes, ?_, hsize', hget⟩
  rw [bloop, hpl]
  dsimp only
  rw [inRange_natCast, List.range_eq_range', hloop, ok_bind]

/-! ### The places -/

theorem linesFit_tileLines {w h r c : Nat} (hidx : ∀ x < w, ∀ y < h, idx x y < colorIdxMax)
    (hr : r * m + m ≤ w) (hc : c * k + k ≤ h) : LinesFit m (tileLines idx m k r c) := by
  intro row hline
  obtain ⟨j, hj, rfl⟩ := List.mem_map.mp hline
  refine ⟨by rw [List.length_map, List.length_range], fun color hcolor => ?_⟩
  obtain ⟨i, hi, rfl⟩ := List.mem_map.mp hcolor
  rw [List.mem_range] at hj hi
  exact hidx (r * m + i) (by omega) (c * k + j) (by omega)

theorem pixelOf_tileLines {r c i j : Nat} (hi : i < m) (hj : j < k) :
    pixelOf (tileLines idx m k r c) i j =
      some (idx ((r * m + i : Nat) : ℚ) ((c * k + j : Nat) : ℚ)) := by
  rw [pixelOf, tileLines, List.getElem?_map, List.getElem?_range hj, Option.map_some,
    Option.bind_some, List.getElem?_map, List.getElem?_range hi, Option.map_some]

/-- What a worker sends: nothing, or its tile and an empty list. -/
theorem placeMain_eq (hm : 0 < m) (hk : 0 < k) (w h r c : Nat) :
    placeMain idx w h (r * m : Nat) (r * m + m : Nat) (c * k : Nat) (c * k + k : Nat) =
      if w ≠ 1 ∧ h ≠ 1 ∧ 0 ≤ 97 + caclSquareIdx w h (r * m : Nat) (r * m + m : Nat) (c * k : Nat) ∧
        97 + caclSquareIdx w h (r * m : Nat) (r * m + m : Nat) (c * k : Nat) < 256
      then [tileLines idx m k r c, []] else [] := by
  have hx : ((r * m + m : Nat) : ℚ) ≠ (r * m : Nat) := Nat.cast_injective.ne (by omega)
  have hy : ((c * k + k : Nat) : ℚ) ≠ (c * k : Nat) := Nat.cast_injective.ne (by omega)
  have hlines : ((inRange (c * k : Nat) (c * k + k : Nat)).map fun y =>
      (inRange (r * m : Nat) (r * m + m : Nat)).map fun x => idx x y) = tileLines idx m k r c := by
    rw [inRange_natCast, inRange_natCast, List.map_map, tileLines]
    simp only [Function.comp_def, List.map_map]
  rw [placeMain, hlines]
  by_cases hone : w = 1 ∨ h = 1
  · rw [if_pos (by tauto), if_neg (by tauto)]
  · rw [if_neg (by tauto)]
    exact if_congr (by tauto) rfl rfl

theorem createPlaces_eq (hn : 0 < n) : createPlaces idx (n * m) (n * k) n =
    (tiles n).map fun tile => placeMain idx (n * m) (n * k) (tile.1 * m : Nat)
      (tile.1 * m + m : Nat) (tile.2 * k : Nat) (tile.2 * k + k : Nat) := by
  simp only [createPlaces, tileBound_eq hn, tileEnd_eq hn]

theorem collect_eq (hn : 0 < n) (s : State) (tile : Nat × Nat) :
    collect (n * m) (n * k) n s tile = bloop (n * m) (tile.1 * m : Nat) (tile.2 * k : Nat)
      (tile.2 * k + k : Nat) (tile.1 * 2 + tile.2) s := by
  simp only [collect, tileBound_eq hn, tileEnd_eq hn]

theorem mem_tiles {tile : Nat × Nat} : tile ∈ tiles n ↔ tile.1 < n ∧ tile.2 < n := by
  obtain ⟨r, c⟩ := tile
  simp [tiles]

theorem tile_le {r : Nat} (hr : r < n) : r * m + m ≤ n * m :=
  Nat.add_one_mul r m ▸ Nat.mul_le_mul_right m hr

theorem mem_tile_iff (hm : 0 < m) {r x : Nat} : r * m ≤ x ∧ x < r * m + m ↔ x / m = r := by
  rw [Nat.div_eq_iff hm]
  omega

/-! ### With one or two columns -/

/-- A tile that comes from its own place is pasted, and nothing else is changed. -/
theorem collect_spec (hm : 0 < m) (hk : 0 < k)
    (hidx : ∀ x < n * m, ∀ y < n * k, idx x y < colorIdxMax) {tile : Nat × Nat}
    (htile : tile.1 < n ∧ tile.2 < n) {s : State} {rest : List Lines}
    (hpl : s.pls[tile.1 * 2 + tile.2]? = some (tileLines idx m k tile.1 tile.2 :: rest))
    (hsize : s.bytes.size = n * m * (n * k) * bpp) :
    ∃ bytes, collect (n * m) (n * k) n s tile =
        .ok ⟨s.pls.set (tile.1 * 2 + tile.2) rest, bytes⟩ ∧
      bytes.size = n * m * (n * k) * bpp ∧ ∀ x < n * m, ∀ y, ∀ b < bpp,
        bytes.get (bpp * (y * (n * m) + x) + b) =
          if (x / m, y / k) = tile then (color (idx x y)).getD b 0
          else s.bytes.get (bpp * (y * (n * m) + x) + b) := by
  obtain ⟨hr, hc⟩ := htile
  obtain ⟨bytes, hbloop, hsize', hget⟩ := bloop_spec (tile_le hr) (tile_le hc) hpl
    (linesFit_tileLines hidx (tile_le hr) (tile_le hc)) hsize
  refine ⟨bytes, (collect_eq (Nat.zero_lt_of_lt hr) s tile).trans hbloop, hsize',
    fun x hx y b hb => ?_⟩
  have hhere : (tile.1 * m ≤ x ∧ x < tile.1 * m + m ∧ tile.2 * k ≤ y ∧ y < tile.2 * k + k) ↔
      (x / m, y / k) = tile := by
    rw [← and_assoc, mem_tile_iff hm, mem_tile_iff hk, Prod.ext_iff]
  rw [hget x hx y b hb]
  by_cases hin : (x / m, y / k) = tile
  · obtain ⟨hleft, hright, htop, hbottom⟩ := hhere.mpr hin
    have hcol : tile.1 * m + (x - tile.1 * m) = x := by omega
    have hrow : tile.2 * k + (y - tile.2 * k) = y := by omega
    rw [if_pos (hhere.mpr hin), pixelOf_tileLines (by omega) (by omega), hcol, hrow, if_pos hin]
    rfl
  · rw [if_neg (fun h => hin (hhere.mp h)), if_neg hin]

/-- Getting a message from the place of one tile leaves the places of the others alone. -/
theorem getElem?_set_of_notMem {tile other : Nat × Nat} {ts : List (Nat × Nat)}
    (hnew : tile.1 * 2 + tile.2 ∉ ts.map fun tile => tile.1 * 2 + tile.2)
    (pls : List (List Lines)) (rest : List Lines) (hother : other ∈ ts) :
    (pls.set (tile.1 * 2 + tile.2) rest)[other.1 * 2 + other.2]? =
      pls[other.1 * 2 + other.2]? := by
  have hne : tile.1 * 2 + tile.2 ≠ other.1 * 2 + other.2 := fun h =>
    hnew (List.mem_map.mpr ⟨other, hother, h.symm⟩)
  exact List.getElem?_set_ne hne

/-- Tiles that come from places of their own are all pasted. -/
theorem collect_foldlM_spec (hm : 0 < m) (hk : 0 < k)
    (hidx : ∀ x < n * m, ∀ y < n * k, idx x y < colorIdxMax) {ts : List (Nat × Nat)}
    (hts : ∀ tile ∈ ts, tile.1 < n ∧ tile.2 < n)
    (hnodup : (ts.map fun tile => tile.1 * 2 + tile.2).Nodup) {s : State}
    (hpls : ∀ tile ∈ ts, ∃ rest,
      s.pls[tile.1 * 2 + tile.2]? = some (tileLines idx m k tile.1 tile.2 :: rest))
    (hsize : s.bytes.size = n * m * (n * k) * bpp) :
    ∃ s', ts.foldlM (collect (n * m) (n * k) n) s = .ok s' ∧
      s'.bytes.size = n * m * (n * k) * bpp ∧ ∀ x < n * m, ∀ y, ∀ b < bpp,
        s'.bytes.get (bpp * (y * (n * m) + x) + b) =
          if (x / m, y / k) ∈ ts then (color (idx x y)).getD b 0
          else s.bytes.get (bpp * (y * (n * m) + x) + b) := by
  induction ts generalizing s with
  | nil => exact ⟨s, rfl, hsize, fun x _ y b _ => (if_neg List.not_mem_nil).symm⟩
  | cons tile ts ih =>
      obtain ⟨htile, hts⟩ := List.forall_mem_cons.mp hts
      obtain ⟨⟨rest, hpl⟩, hpls⟩ := List.forall_mem_cons.mp hpls
      obtain ⟨hnew, hnodup⟩ := List.nodup_cons.mp hnodup
      obtain ⟨bytes, hcollect, hsize₁, hget₁⟩ := collect_spec hm hk hidx htile hpl hsize
      have hpls₁ : ∀ other ∈ ts, ∃ rest', (s.pls.set (tile.1 * 2 + tile.2) rest)[
          other.1 * 2 + other.2]? = some (tileLines idx m k other.1 other.2 :: rest') := by
        intro other hother
        rw [getElem?_set_of_notMem hnew s.pls rest hother]
        exact hpls other hother
      obtain ⟨s', hrun, hsize', hget'⟩ := ih hts hnodup (s := ⟨_, bytes⟩) hpls₁ hsize₁
      refine ⟨s', ?_, hsize', fun x hx y b hb => ?_⟩
      · rw [List.foldlM_cons, hcollect, ok_bind, hrun]
      · rw [hget' x hx y b hb]
        by_cases hlater : (x / m, y / k) ∈ ts
        · rw [if_pos hlater, if_pos (List.mem_cons_of_mem _ hlater)]
        · rw [if_neg hlater, hget₁ x hx y b hb]
          exact if_congr (by simp [hlater]) rfl rfl

theorem tiles_places_nodup (htwo : n ≤ 2) :
    ((tiles n).map fun tile => tile.1 * 2 + tile.2).Nodup := by
  have hall : ∀ n ≤ 2, ((tiles n).map fun tile => tile.1 * 2 + tile.2).Nodup := by decide
  exact hall n htwo

theorem tiles_getElem? (htwo : n ≤ 2) {tile : Nat × Nat} (htile : tile ∈ tiles n) :
    (tiles n)[tile.1 * 2 + tile.2]? = some tile := by
  have hall : ∀ n ≤ 2, ∀ tile ∈ tiles n, (tiles n)[tile.1 * 2 + tile.2]? = some tile := by decide
  exact hall n htwo tile htile

/-- The number of a tile, which its worker marks its output with. -/
theorem caclSquareIdx_tile {w h : ℚ} (hw : 0 < w) (hh : 0 < h) (htwo : n ≤ 2) {r c : Nat}
    (hr : r < n) (hc : c < n) :
    caclSquareIdx w h (r * (w / n)) ((r + 1) * (w / n)) (c * (h / n)) = 2 * r + c := by
  have hcol : (if (r : ℚ) * (w / n) > 0 then
      w / ((r + 1) * (w / n) - r * (w / n)) * (w / (r * (w / n)) - 1) else 0) =
        ((2 * r : ℤ) : ℚ) := by
    obtain rfl | ⟨rfl, rfl⟩ : r = 0 ∨ r = 1 ∧ n = 2 := by omega
    · simp
    · rw [if_pos (by push_cast; linarith)]
      push_cast
      field_simp
      ring
  have hrow : (if (c : ℚ) * (h / n) > 0 then h / (c * (h / n)) - 1 else 0) = ((c : ℤ) : ℚ) := by
    obtain rfl | ⟨rfl, rfl⟩ : c = 0 ∨ c = 1 ∧ n = 2 := by omega
    · simp
    · rw [if_pos (by push_cast; linarith)]
      push_cast
      field_simp
      ring
  rw [caclSquareIdx, hcol, hrow, ← Int.cast_add, Double.roundEven_intCast]

theorem caclSquareIdx_eq (hm : 0 < m) (hk : 0 < k) (htwo : n ≤ 2) {r c : Nat} (hr : r < n)
    (hc : c < n) : caclSquareIdx (n * m : Nat) (n * k : Nat) (r * m : Nat) (r * m + m : Nat)
      (c * k : Nat) = 2 * r + c := by
  have hn : 0 < n := Nat.zero_lt_of_lt hr
  rw [← tileBound_eq hn r m, ← tileEnd_eq hn r m, ← tileBound_eq hn c k]
  exact caclSquareIdx_tile (Nat.cast_pos.mpr (Nat.mul_pos hn hm))
    (Nat.cast_pos.mpr (Nat.mul_pos hn hk)) htwo hr hc

theorem isRaster_of_two (hn : 0 < n) (htwo : n ≤ 2) (hm : 0 < m) (hk : 0 < k)
    (hidx : ∀ x < n * m, ∀ y < n * k, idx x y < colorIdxMax) (hw : n * m ≠ 1) (hh : n * k ≠ 1) :
    IsRaster idx (n * m) (n * k) (getBytes idx (n * m) (n * k) n) := by
  have hpls : ∀ tile ∈ tiles n, ∃ rest, (createPlaces idx (n * m) (n * k) n)[
      tile.1 * 2 + tile.2]? = some (tileLines idx m k tile.1 tile.2 :: rest) := by
    intro tile htile
    obtain ⟨hr, hc⟩ := mem_tiles.mp htile
    have hmark := caclSquareIdx_eq hm hk htwo hr hc
    refine ⟨[[]], ?_⟩
    rw [createPlaces_eq hn, List.getElem?_map, tiles_getElem? htwo htile, Option.map_some,
      placeMain_eq hm hk, if_pos ⟨hw, hh, by omega, by omega⟩]
  obtain ⟨s', hrun, hsize, hget⟩ := collect_foldlM_spec hm hk hidx
    (fun tile htile => mem_tiles.mp htile) (tiles_places_nodup htwo) hpls
    (s := ⟨createPlaces idx (n * m) (n * k) n, makeBytes (n * m * (n * k) * bpp)⟩) rfl
  refine ⟨s'.bytes, ?_, hsize, fun x hx y hy b hb => ?_⟩
  · rw [getBytes, hrun]
    rfl
  · have hmem : (x / m, y / k) ∈ tiles n := mem_tiles.mpr
      ⟨Nat.div_lt_of_lt_mul (Nat.mul_comm n m ▸ hx), Nat.div_lt_of_lt_mul (Nat.mul_comm n k ▸ hy)⟩
    rw [hget x hx y b hb, if_pos hmem]

/-- `mandelbrot2` has two rows and two columns. -/
theorem mandelbrot2_isRaster (hm : 0 < m) (hk : 0 < k)
    (hidx : ∀ x < 2 * m, ∀ y < 2 * k, idx x y < colorIdxMax) :
    IsRaster idx (2 * m) (2 * k) (mandelbrot2 idx (2 * m) (2 * k)) :=
  isRaster_of_two (by decide) (Nat.le_refl 2) hm hk hidx (by omega) (by omega)

/-! ### With one pixel -/

theorem bloop_blocked {w pl : Nat} {xs ys ye : ℚ} {s : State} (hpl : s.pls[pl]? = some []) :
    bloop w xs ys ye pl s = .error .blocked := by
  rw [bloop, hpl]

/-- A worker that raises sends nothing, and the first place is waited for. -/
theorem getBytes_of_one (hm : 0 < m) (hk : 0 < k) (hone : m = 1 ∨ k = 1) :
    getBytes idx (1 * m) (1 * k) 1 = .error .blocked := by
  have hpl : (createPlaces idx (1 * m) (1 * k) 1)[0]? = some [] := by
    rw [createPlaces_eq (by decide)]
    exact congrArg some ((placeMain_eq hm hk _ _ 0 0).trans (if_neg (by omega)))
  have hfirst : collect (1 * m) (1 * k) 1 ⟨createPlaces idx (1 * m) (1 * k) 1,
      makeBytes (1 * m * (1 * k) * bpp)⟩ (0, 0) = .error .blocked :=
    (collect_eq (by decide) _ _).trans (bloop_blocked hpl)
  have htiles : tiles 1 = [(0, 0)] := rfl
  rw [getBytes, htiles, List.foldlM_cons, hfirst, error_bind, error_bind]

/-! ### With three columns and more -/

/-- Until the tile of row 1 and column 0 is pasted, the first byte of it is 0, and the place with
number 2, which it is taken from, has one message of lines at most. -/
structure Waiting (n m k : Nat) (s : State) : Prop where
  size : s.bytes.size = n * m * (n * k) * bpp
  fit : ∀ pl ∈ s.pls, ∀ lines ∈ pl, LinesFit m lines
  blank : s.bytes.get (bpp * (0 * (n * m) + m) + 0) = 0
  tail : ∀ pl, s.pls[2]? = some pl → ∀ lines ∈ pl.tail, lines = []

/-- The place with number 2 has sent its lines already. -/
def Spent (s : State) : Prop := ∀ pl, s.pls[2]? = some pl → ∀ lines ∈ pl, lines = []

theorem exists_of_bloop {w pl : Nat} {xs ys ye : ℚ} {s s' : State}
    (h : bloop w xs ys ye pl s = .ok s') :
    ∃ allRes rest, s.pls[pl]? = some (allRes :: rest) := by
  rw [bloop] at h
  split at h
  · cases h
  · cases h
  · exact ⟨_, _, by assumption⟩

theorem eq_or_getElem?_of_set {pls : List (List Lines)} {i j : Nat} {new pl : List Lines}
    (h : (pls.set i new)[j]? = some pl) : i = j ∧ pl = new ∨ i ≠ j ∧ pls[j]? = some pl := by
  rw [List.getElem?_set] at h
  split_ifs at h with heq hlt
  · exact Or.inl ⟨heq, (Option.some.inj h).symm⟩
  · exact Or.inr ⟨heq, h⟩

variable {s s' : State} {tile : Nat × Nat}

theorem Waiting.collect (hm : 0 < m) (hk : 0 < k) (hn : 1 < n) (hs : Waiting n m k s)
    (htile : tile.1 < n ∧ tile.2 < n) (hspent : tile = (1, 0) → Spent s)
    (hok : collect (n * m) (n * k) n s tile = .ok s') :
    Waiting n m k s' ∧ (tile.1 * 2 + tile.2 = 2 ∨ Spent s → Spent s') := by
  rw [collect_eq (by omega)] at hok
  obtain ⟨allRes, rest, hpl⟩ := exists_of_bloop hok
  have hmem : allRes :: rest ∈ s.pls := List.mem_of_getElem? hpl
  obtain ⟨bytes, hbloop, hsize, hget⟩ := bloop_spec (tile_le htile.1) (tile_le htile.2) hpl
    (hs.fit _ hmem allRes List.mem_cons_self) hs.size
  obtain rfl := Except.ok.inj (hbloop.symm.trans hok)
  refine ⟨⟨hsize, fun pl hpl' lines hlines => ?_, ?_, fun pl hpl' => ?_⟩, fun h pl hpl' => ?_⟩
  · rcases List.mem_or_eq_of_mem_set hpl' with hold | rfl
    · exact hs.fit pl hold lines hlines
    · exact hs.fit _ hmem lines (List.mem_cons_of_mem _ hlines)
  · have hfirst : m < n * m := by nlinarith
    rw [hget m hfirst 0 0 (by decide)]
    split_ifs with hin
    · obtain ⟨hleft, hright, htop, _⟩ := hin
      have hr : tile.1 = 1 := ((mem_tile_iff hm).mp ⟨hleft, hright⟩).symm.trans (Nat.div_self hm)
      have hc : tile.2 = 0 := by
        by_contra hne
        exact absurd htop (Nat.not_le_of_lt (Nat.mul_pos (Nat.pos_of_ne_zero hne) hk))
      have htwo : tile.1 * 2 + tile.2 = 2 := by omega
      obtain rfl := hspent (Prod.ext hr hc) _ (htwo ▸ hpl) allRes List.mem_cons_self
      exact hs.blank
    · exact hs.blank
  · rcases eq_or_getElem?_of_set hpl' with ⟨htwo, rfl⟩ | ⟨_, hold⟩
    · exact fun lines hlines =>
        hs.tail (allRes :: pl) (htwo ▸ hpl) lines (List.mem_of_mem_tail hlines)
    · exact hs.tail pl hold
  · rcases eq_or_getElem?_of_set hpl' with ⟨htwo, rfl⟩ | ⟨htwo, hold⟩
    · exact hs.tail _ (htwo ▸ hpl)
    · exact h.resolve_left htwo pl hold

theorem Waiting.foldlM (hm : 0 < m) (hk : 0 < k) (hn : 1 < n) {ts : List (Nat × Nat)}
    (hs : Waiting n m k s) (hts : ∀ tile ∈ ts, tile.1 < n ∧ tile.2 < n)
    (hspent : (1, 0) ∈ ts → Spent s)
    (hok : ts.foldlM (Mandelbrot.collect (n * m) (n * k) n) s = .ok s') :
    Waiting n m k s' ∧ ((∃ tile ∈ ts, tile.1 * 2 + tile.2 = 2) ∨ Spent s → Spent s') := by
  induction ts generalizing s with
  | nil =>
      obtain rfl := Except.ok.inj hok
      exact ⟨hs, fun h => h.resolve_left (fun ⟨_, htile, _⟩ => List.not_mem_nil htile)⟩
  | cons tile ts ih =>
      obtain ⟨htile, hts⟩ := List.forall_mem_cons.mp hts
      rw [List.foldlM_cons] at hok
      obtain ⟨s₁, hstep, hok⟩ := exists_of_bind_eq_ok hok
      obtain ⟨hs₁, hspent₁⟩ := hs.collect hm hk hn htile
        (fun h => hspent (h ▸ List.mem_cons_self)) hstep
      obtain ⟨hs', hspent'⟩ := ih hs₁ hts
        (fun h => hspent₁ (Or.inr (hspent (List.mem_cons_of_mem _ h)))) hok
      refine ⟨hs', fun h => hspent' ?_⟩
      rcases h with ⟨other, hother, htwo⟩ | h
      · rcases List.mem_cons.mp hother with rfl | hother
        · exact Or.inr (hspent₁ (Or.inl htwo))
        · exact Or.inl ⟨other, hother, htwo⟩
      · exact Or.inr (hspent₁ (Or.inr h))

theorem mem_createPlaces (hn : 0 < n) (hm : 0 < m) (hk : 0 < k) {pl : List Lines}
    (hpl : pl ∈ createPlaces idx (n * m) (n * k) n) :
    pl = [] ∨ ∃ r < n, ∃ c < n, pl = [tileLines idx m k r c, []] := by
  rw [createPlaces_eq hn] at hpl
  obtain ⟨tile, htile, rfl⟩ := List.mem_map.mp hpl
  obtain ⟨hr, hc⟩ := mem_tiles.mp htile
  rw [placeMain_eq hm hk]
  split_ifs
  · exact Or.inr ⟨tile.1, hr, tile.2, hc, rfl⟩
  · exact Or.inl rfl

theorem waiting_start (hn : 0 < n) (hm : 0 < m) (hk : 0 < k)
    (hidx : ∀ x < n * m, ∀ y < n * k, idx x y < colorIdxMax) :
    Waiting n m k ⟨createPlaces idx (n * m) (n * k) n, makeBytes (n * m * (n * k) * bpp)⟩ where
  size := rfl
  blank := rfl
  fit pl hpl lines hlines := by
    rcases mem_createPlaces hn hm hk hpl with rfl | ⟨r, hr, c, hc, rfl⟩
    · cases hlines
    · rcases List.mem_pair.mp hlines with rfl | rfl
      · exact linesFit_tileLines hidx (tile_le hr) (tile_le hc)
      · exact List.forall_mem_nil _
  tail pl hpl lines hlines := by
    rcases mem_createPlaces hn hm hk (List.mem_of_getElem? hpl) with rfl | ⟨r, _, c, _, rfl⟩
    · cases hlines
    · exact List.mem_singleton.mp hlines

theorem exists_tiles_eq (hn : 0 < n) :
    ∃ later, tiles n = (List.range n).map (fun c => (0, c)) ++ later := by
  obtain ⟨j, rfl⟩ := Nat.exists_eq_add_of_le' hn
  rw [tiles, List.range_succ_eq_map, List.flatMap_cons]
  exact ⟨_, rfl⟩

/-- With three columns the second row begins with the place that the first row has got already. -/
theorem not_isRaster_of_three (hthree : 3 ≤ n) (hm : 0 < m) (hk : 0 < k)
    (hidx : ∀ x < n * m, ∀ y < n * k, idx x y < colorIdxMax) :
    ¬ IsRaster idx (n * m) (n * k) (getBytes idx (n * m) (n * k) n) := by
  rintro ⟨bytes, hok, _, hget⟩
  obtain ⟨s', hrun, hbytes⟩ := exists_of_bind_eq_ok hok
  obtain rfl := Except.ok.inj hbytes
  obtain ⟨later, htiles⟩ := exists_tiles_eq (by omega : 0 < n)
  have hrange : ∀ tile ∈ tiles n, tile.1 < n ∧ tile.2 < n := fun _ => mem_tiles.mp
  rw [htiles, List.foldlM_append] at hrun
  rw [htiles] at hrange
  obtain ⟨s₁, hfirst, hlater⟩ := exists_of_bind_eq_ok hrun
  obtain ⟨hs₁, hspent⟩ := (waiting_start (by omega) hm hk hidx).foldlM hm hk (by omega)
    (fun tile h => hrange tile (List.mem_append_left _ h)) (fun h => by simp at h) hfirst
  have hthird : (0, 2) ∈ (List.range n).map fun c => (0, c) :=
    List.mem_map_of_mem (List.mem_range.mpr hthree)
  obtain ⟨hs', _⟩ := hs₁.foldlM hm hk (by omega)
    (fun tile h => hrange tile (List.mem_append_right _ h))
    (fun _ => hspent (Or.inl ⟨_, hthird, rfl⟩)) hlater
  have hpixel := hget m (by nlinarith) 0 (Nat.mul_pos (by omega) hk) 0 (by decide)
  cases hs'.blank.symm.trans hpixel

/-- The picture is the one computed in one pass exactly when there are at most two rows of tiles and
neither side of the picture is a single pixel. -/
theorem getBytes_isRaster_iff {width height : Nat} (hn : 0 < n) (hwidth : n ∣ width)
    (hheight : n ∣ height) (hwpos : 0 < width) (hhpos : 0 < height)
    (hidx : ∀ x < width, ∀ y < height, idx x y < colorIdxMax) :
    IsRaster idx width height (getBytes idx width height n) ↔
      n ≤ 2 ∧ 1 < width ∧ 1 < height := by
  obtain ⟨m, rfl⟩ := hwidth
  obtain ⟨k, rfl⟩ := hheight
  have hm : 0 < m := Nat.pos_of_mul_pos_left hwpos
  have hk : 0 < k := Nat.pos_of_mul_pos_left hhpos
  by_cases htwo : n ≤ 2
  · by_cases hone : n * m = 1 ∨ n * k = 1
    · obtain rfl : n = 1 := hone.elim Nat.eq_one_of_mul_eq_one_right Nat.eq_one_of_mul_eq_one_right
      rw [getBytes_of_one hm hk (by omega)]
      exact iff_of_false (fun ⟨_, h, _⟩ => nomatch h) (by omega)
    · obtain ⟨hw, hh⟩ := not_or.mp hone
      exact iff_of_true (isRaster_of_two hn htwo hm hk hidx hw hh) ⟨htwo, by omega, by omega⟩
  · exact iff_of_false (not_isRaster_of_three (by omega) hm hk hidx) (fun h => htwo h.1)

theorem getBytes_isRaster_fourByFour :
    IsRaster (fun x _ => x.num.toNat) 4 4 (getBytes (fun x _ => x.num.toNat) 4 4 2) :=
  (getBytes_isRaster_iff (by decide) (by decide) (by decide) (by decide) (by decide)
    (by decide)).mpr (by decide)

/-- With nine tiles of one pixel each, those at the top of the second and of the third column stay
blank. -/
theorem getBytes_nineTiles :
    ((getBytes (fun _ _ => 0) 3 3 3).toOption.map fun bytes => (List.range 9).map fun i =>
      bytes.get (4 * i)) = some [255, 0, 0, 255, 255, 255, 255, 255, 255] ∧
    ¬ IsRaster (fun _ _ => 0) 3 3 (getBytes (fun _ _ => 0) 3 3 3) := by
  refine ⟨by decide +kernel, ?_⟩
  exact not_isRaster_of_three (n := 3) (m := 1) (k := 1) le_rfl one_pos one_pos
    (fun _ _ _ _ => by decide)

end CodeSlices.Mandelbrot
