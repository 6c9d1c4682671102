import CodeSlices.Mandelbrot.Raster

/-!
# The tiles of a picture of any size

`get-bytes` with the default `sub-square-max`, as the sequence of its copies. The bounds of a tile
are not whole numbers where a side of the picture is odd, but its rows and columns are counted from
them, and so such a tile has more of them than half of the picture.
-/

namespace CodeSlices.Mandelbrot

/-- `color-idx` of the worker, from the rounded number on. -/
def colorIdx (idx : ℤ) : Nat :=
  if idx ≥ colorIdxMax then (idx.tmod colorIdxMax).toNat
  else if idx < 0 then (idx.tmod colorIdxMax).natAbs
  else idx.toNat

def subSquareMax : Nat := 2

/-- One `bytes-copy!`: where it starts and what it copies. -/
structure Copy where
  start : ℚ
  src : List UInt8

def paste (bytes : Bytes) (copy : Copy) : Except Fault Bytes := bytesCopy bytes copy.start copy.src

def Copy.Covers (copy : Copy) (i : Nat) : Prop :=
  copy.start ≤ i ∧ (i : ℚ) < copy.start + copy.src.length

instance (copy : Copy) (i : Nat) : Decidable (copy.Covers i) := inferInstanceAs (Decidable (_ ∧ _))

def sentLines (idx : ℚ → ℚ → Nat) (width height : Nat) (tile : Nat × Nat) : Lines :=
  let yStep : ℚ := height / subSquareMax
  let xStep : ℚ := width / subSquareMax
  (inRange (tile.2 * yStep) ((tile.2 + 1) * yStep)).map fun y =>
    (inRange (tile.1 * xStep) ((tile.1 + 1) * xStep)).map fun x => idx x y

/-- The copies of a tile, row by row. -/
def tileCopies (idx : ℚ → ℚ → Nat) (width height : Nat) (tile : Nat × Nat) : List Copy :=
  let yStep : ℚ := height / subSquareMax
  let xStep : ℚ := width / subSquareMax
  let xs := tile.1 * xStep
  let ys := tile.2 * yStep
  (inRange ys ((tile.2 + 1) * yStep)).map fun y =>
    { start := (width * ys + xs) * bpp + width * (y - ys) * bpp
      src := ((inRange xs ((tile.1 + 1) * xStep)).map fun x => idx x y).flatMap color }

def copies (idx : ℚ → ℚ → Nat) (width height : Nat) : List Copy :=
  (tiles subSquareMax).flatMap (tileCopies idx width height)

/-- The copies begin at pixels and stay inside of the picture, each of its bytes is written by one
of them, and there is no error. -/
structure Tiled (idx : ℚ → ℚ → Nat) (width height : Nat) : Prop where
  whole : ∀ copy ∈ copies idx width height, ∃ pixel : Nat, copy.start = (bpp * pixel : Nat)
  inside : ∀ copy ∈ copies idx width height,
    copy.start + copy.src.length ≤ (width * height * bpp : Nat)
  once : ∀ i < width * height * bpp, (copies idx width height).countP (·.Covers i) = 1
  returns : ∃ bytes, getBytes idx width height subSquareMax = .ok bytes

variable {idx : ℚ → ℚ → Nat} {w h m k : Nat}

theorem colorIdx_lt (idx : ℤ) : colorIdx idx < colorIdxMax := by
  rw [colorIdx]
  split_ifs with hmax hneg
  · have hlt := Int.tmod_lt_of_pos idx (by decide : (0 : ℤ) < colorIdxMax)
    exact (Int.toNat_lt' (by decide)).mpr hlt
  · rw [Int.natAbs_tmod]
    exact Nat.mod_lt _ (by decide)
  · exact (Int.toNat_lt' (by decide)).mpr (not_le.mp hmax)

/-! ### The copies that are done -/

theorem lineLoop_eq_foldlM (hidx : ∀ x y, idx x y < colorIdxMax) (xs xe ys : ℚ) (rows : List ℚ)
    (bytes : Bytes) :
    lineLoop w xs ys rows (rows.map fun y => (inRange xs xe).map fun x => idx x y) bytes =
      (rows.map fun y => Copy.mk ((w * ys + xs) * bpp + w * (y - ys) * bpp)
        (((inRange xs xe).map fun x => idx x y).flatMap color)).foldlM paste bytes := by
  induction rows generalizing bytes with
  | nil => rfl
  | cons y rows ih =>
      have hline : ∀ i ∈ (inRange xs xe).map fun x => idx x y, i < colorIdxMax := by
        intro i hi
        obtain ⟨x, -, rfl⟩ := List.mem_map.mp hi
        exact hidx x y
      rw [List.map_cons, List.map_cons, lineLoop, lineData_eq hline, ok_bind, List.foldlM_cons]
      exact congrArg (_ >>= ·) (funext ih)

theorem createPlaces_two (hw : 2 ≤ w) (hh : 2 ≤ h) {tile : Nat × Nat}
    (htile : tile ∈ tiles subSquareMax) :
    (createPlaces idx w h subSquareMax)[tile.1 * 2 + tile.2]? =
      some [sentLines idx w h tile, []] := by
  obtain ⟨hr, hc⟩ : tile.1 < 2 ∧ tile.2 < 2 := mem_tiles.mp htile
  have hwq : (0 : ℚ) < w := Nat.cast_pos.mpr (by omega)
  have hhq : (0 : ℚ) < h := Nat.cast_pos.mpr (by omega)
  have hmark := caclSquareIdx_tile hwq hhq (Nat.le_refl 2) hr hc
  have hstep : ∀ {side : ℚ}, 0 < side → ∀ r : Nat,
      ((r : ℚ) + 1) * (side / (2 : Nat)) ≠ r * (side / (2 : Nat)) := by
    intro side hside r
    rw [add_one_mul]
    exact (lt_add_of_pos_right _ (div_pos hside Nat.ofNat_pos)).ne'
  have hsent : placeMain idx w h (tile.1 * ((w : ℚ) / (2 : Nat)))
      ((tile.1 + 1) * ((w : ℚ) / (2 : Nat))) (tile.2 * ((h : ℚ) / (2 : Nat)))
      ((tile.2 + 1) * ((h : ℚ) / (2 : Nat))) = [sentLines idx w h tile, []] := by
    rw [placeMain, if_neg (by simp only [hstep hwq, hstep hhq, or_false]; omega),
      if_pos (by rw [hmark]; omega)]
    rfl
  rw [createPlaces, List.getElem?_map, @tiles_getElem? subSquareMax (Nat.le_refl 2) tile htile,
    Option.map_some]
  exact congrArg some hsent

theorem collect_two {s : State} {tile : Nat × Nat} (hidx : ∀ x y, idx x y < colorIdxMax)
    {rest : List Lines}
    (hpl : s.pls[tile.1 * 2 + tile.2]? = some (sentLines idx w h tile :: rest)) :
    collect w h subSquareMax s tile =
      (tileCopies idx w h tile).foldlM paste s.bytes >>= fun bytes =>
        Except.ok ⟨s.pls.set (tile.1 * 2 + tile.2) rest, bytes⟩ := by
  simp only [collect, bloop, hpl, sentLines]
  rw [lineLoop_eq_foldlM hidx]
  rfl

theorem collect_foldlM_eq (hidx : ∀ x y, idx x y < colorIdxMax) {ts : List (Nat × Nat)}
    (hnodup : (ts.map fun tile => tile.1 * 2 + tile.2).Nodup) {s : State}
    (hpls : ∀ tile ∈ ts, ∃ rest,
      s.pls[tile.1 * 2 + tile.2]? = some (sentLines idx w h tile :: rest)) :
    (ts.foldlM (collect w h subSquareMax) s >>= fun s => Except.ok s.bytes) =
      (ts.flatMap (tileCopies idx w h)).foldlM paste s.bytes := by
  induction ts generalizing s with
  | nil => rfl
  | cons tile ts ih =>
      obtain ⟨⟨rest, hpl⟩, hpls⟩ := List.forall_mem_cons.mp hpls
      obtain ⟨hnew, hnodup⟩ := List.nodup_cons.mp hnodup
      rw [List.foldlM_cons, collect_two hidx hpl, List.flatMap_cons, List.foldlM_append]
      cases (tileCopies idx w h tile).foldlM paste s.bytes with
      | error e => rfl
      | ok bytes =>
          refine ih hnodup (s := ⟨_, bytes⟩) fun other hother => ?_
          rw [getElem?_set_of_notMem hnew s.pls rest hother]
          exact hpls other hother

/-- The picture is put together by the copies of its tiles, one after the other. -/
theorem getBytes_eq_foldlM (hidx : ∀ x y, idx x y < colorIdxMax) (hw : 2 ≤ w) (hh : 2 ≤ h) :
    getBytes idx w h subSquareMax =
      (copies idx w h).foldlM paste (makeBytes (w * h * bpp)) := by
  refine collect_foldlM_eq hidx (tiles_places_nodup (Nat.le_refl 2))
    (s := ⟨createPlaces idx w h subSquareMax, makeBytes (w * h * bpp)⟩) fun tile htile => ?_
  exact ⟨_, createPlaces_two hw hh htile⟩

theorem paste_inside {bytes bytes' : Bytes} {copy : Copy} (hok : paste bytes copy = .ok bytes') :
    copy.start + copy.src.length ≤ bytes.size ∧ bytes'.size = bytes.size := by
  simp only [paste, bytesCopy] at hok
  split_ifs at hok with h
  obtain ⟨hden, hnonneg, hsize⟩ := h
  obtain rfl := Except.ok.inj hok
  have hstart : copy.start = (copy.start.num.toNat : ℚ) := by
    rw [← Int.cast_natCast, Int.toNat_of_nonneg hnonneg]
    exact ((Rat.den_eq_one_iff copy.start).mp hden).symm
  refine ⟨?_, rfl⟩
  rw [hstart]
  exact_mod_cast hsize

theorem foldlM_paste_inside {cs : List Copy} {bytes bytes' : Bytes}
    (hok : cs.foldlM paste bytes = .ok bytes') :
    ∀ copy ∈ cs, copy.start + copy.src.length ≤ bytes.size := by
  induction cs generalizing bytes with
  | nil => exact List.forall_mem_nil _
  | cons copy cs ih =>
      rw [List.foldlM_cons] at hok
      obtain ⟨next, hpaste, hrest⟩ := exists_of_bind_eq_ok hok
      obtain ⟨hinside, hsize⟩ := paste_inside hpaste
      refine List.forall_mem_cons.mpr ⟨hinside, ?_⟩
      rw [← hsize]
      exact ih hrest

/-! ### Sides of odd length -/

theorem mem_inRange {first last : ℚ} {i : Nat} (hi : first + i < last) :
    first + i ∈ inRange first last := by
  refine List.mem_map.mpr ⟨i, List.mem_range.mpr ?_, rfl⟩
  rw [Int.lt_toNat, Int.lt_ceil, Int.cast_natCast]
  linarith

theorem length_inRange (first last : ℚ) : (inRange first last).length = ⌈last - first⌉.toNat := by
  rw [inRange, List.length_map, List.length_range]

theorem le_two_mul_ceil (w : Nat) : w ≤ 2 * ⌈(w : ℚ) / 2⌉.toNat := by
  have hceil : (w : ℚ) / 2 ≤ (⌈(w : ℚ) / 2⌉.toNat : ℤ) :=
    le_trans (Int.le_ceil _) (Int.cast_le.mpr (Int.self_le_toNat _))
  have hdouble : (w : ℚ) ≤ ((2 * ⌈(w : ℚ) / 2⌉.toNat : Nat) : ℚ) := by
    push_cast at hceil ⊢
    linarith
  exact Nat.cast_le.mp hdouble

/-- The last line of the tile at the bottom right does not fit where a side is odd. -/
theorem exists_copy_outside (hw : 2 ≤ w) (hh : 2 ≤ h) (hodd : ¬ (2 ∣ w ∧ 2 ∣ h)) :
    ∃ copy ∈ copies idx w h, ((w * h * bpp : Nat) : ℚ) < copy.start + copy.src.length := by
  have hmem : ((1, 1) : Nat × Nat) ∈ tiles subSquareMax := mem_tiles.mpr (by decide)
  have htwo : ((subSquareMax : Nat) : ℚ) = 2 := rfl
  have hhalf : (1 + 1) * ((w : ℚ) / 2) - 1 * (w / 2) = w / 2 := by ring
  obtain ⟨W, hW⟩ : ∃ W, W = ⌈(w : ℚ) / 2⌉.toNat := ⟨_, rfl⟩
  obtain ⟨j, hj⟩ : ∃ j, j = (h - 1) / 2 := ⟨_, rfl⟩
  have hceil : w ≤ 2 * W := hW ▸ le_two_mul_ceil w
  have hend : w * h * 4 < 2 * (w * h) + 2 * w + 4 * (w * j) + 4 * W := by
    obtain rfl | ⟨rfl, hlt⟩ : h = 2 * j + 1 ∨ h = 2 * j + 2 ∧ w < 2 * W := by omega
    · linarith [Nat.mul_add w (2 * j) 1]
    · linarith [Nat.mul_add w (2 * j) 2]
  have hrow : ((1 : Nat) : ℚ) * (h / subSquareMax) + j ∈
      inRange ((1 : Nat) * (h / subSquareMax)) (((1 : Nat) + 1) * ((h : ℚ) / subSquareMax)) := by
    refine mem_inRange ?_
    have hlt : ((j * 2 : Nat) : ℚ) < h := Nat.cast_lt.mpr (by omega)
    push_cast [htwo] at hlt ⊢
    linarith
  refine ⟨_, List.mem_flatMap.mpr ⟨(1, 1), hmem, List.mem_map_of_mem hrow⟩, ?_⟩
  simp only [length_flatMap_color, List.length_map, length_inRange, Nat.cast_one, htwo, hhalf, ← hW]
  have hendq : ((w * h * 4 : Nat) : ℚ) <
      ((2 * (w * h) + 2 * w + 4 * (w * j) + 4 * W : Nat) : ℚ) := Nat.cast_lt.mpr hend
  push_cast [bpp] at hendq ⊢
  linarith

/-! ### Sides of even length -/

theorem half_eq (r m : Nat) : (r : ℚ) * (((2 * m : Nat) : ℚ) / subSquareMax) = (r * m : Nat) :=
  tileBound_eq (by decide : 0 < 2) r m

theorem half_add_eq (r m : Nat) :
    ((r : ℚ) + 1) * (((2 * m : Nat) : ℚ) / subSquareMax) = (r * m + m : Nat) :=
  tileEnd_eq (by decide : 0 < 2) r m

def lineCopy (idx : ℚ → ℚ → Nat) (m k r c j : Nat) : Copy where
  start := ((4 * ((c * k + j) * (2 * m) + r * m) : Nat) : ℚ)
  src := ((List.range m).map fun i =>
    idx ((r * m + i : Nat) : ℚ) ((c * k + j : Nat) : ℚ)).flatMap color

theorem tileCopies_eq (r c : Nat) :
    tileCopies idx (2 * m) (2 * k) (r, c) = (List.range k).map (lineCopy idx m k r c) := by
  simp only [tileCopies, half_eq, half_add_eq, inRange_natCast, List.map_map]
  refine List.map_congr_left fun j _ => ?_
  simp only [Function.comp_def, linePos_eq, lineCopy]

theorem length_lineCopy (r c j : Nat) : (lineCopy idx m k r c j).src.length = 4 * m := by
  rw [lineCopy, length_flatMap_color, List.length_map, List.length_range]

theorem mem_copies {copy : Copy} (hcopy : copy ∈ copies idx (2 * m) (2 * k)) :
    ∃ r < 2, ∃ c < 2, ∃ j < k, copy = lineCopy idx m k r c j := by
  obtain ⟨⟨r, c⟩, htile, hline⟩ := List.mem_flatMap.mp hcopy
  obtain ⟨hr, hc⟩ := mem_tiles.mp htile
  rw [tileCopies_eq] at hline
  obtain ⟨j, hj, rfl⟩ := List.mem_map.mp hline
  exact ⟨r, hr, c, hc, j, List.mem_range.mp hj, rfl⟩

theorem lineCopy_covers_iff {r c j x y b : Nat} (hr : r < 2) (hx : x < 2 * m) (hb : b < 4) :
    (lineCopy idx m k r c j).Covers (4 * (y * (2 * m) + x) + b) ↔
      y = c * k + j ∧ r * m ≤ x ∧ x < r * m + m := by
  rw [Copy.Covers, length_lineCopy, lineCopy, Nat.cast_le, ← Nat.cast_add, Nat.cast_lt]
  exact covers_iff hx (tile_le hr) hb

/-- A byte is written by one line of the tile it is in, and by no line of another tile. -/
theorem countP_tileCopies (hm : 0 < m) (hk : 0 < k) {tile : Nat × Nat} (hr : tile.1 < 2)
    {x y b : Nat} (hx : x < 2 * m) (hb : b < 4) :
    (tileCopies idx (2 * m) (2 * k) tile).countP (·.Covers (4 * (y * (2 * m) + x) + b)) =
      if (x / m, y / k) = tile then 1 else 0 := by
  obtain ⟨r, c⟩ := tile
  rw [tileCopies_eq, List.countP_map]
  by_cases hin : (x / m, y / k) = (r, c)
  · obtain ⟨rfl, rfl⟩ := Prod.mk.inj hin
    obtain ⟨htop, hbottom⟩ := (mem_tile_iff hk).mpr (rfl : y / k = y / k)
    have hline : ∀ j ∈ List.range k,
        ((lineCopy idx m k (x / m) (y / k) j).Covers (4 * (y * (2 * m) + x) + b) ↔
          j = y - y / k * k) := by
      intro j _
      rw [lineCopy_covers_iff hr hx hb, mem_tile_iff hm]
      omega
    have hmem : y - y / k * k ∈ List.range k := List.mem_range.mpr (by omega)
    have hone : (List.range k).count (y - y / k * k) = 1 :=
      List.nodup_range.count.trans (if_pos hmem)
    rw [if_pos rfl, ← hone]
    refine List.countP_congr fun j hj => ?_
    simp only [Function.comp_apply, decide_eq_true_eq, beq_iff_eq]
    exact hline j hj
  · rw [if_neg hin]
    refine List.countP_eq_zero.mpr fun j hj hcovers => hin ?_
    obtain ⟨hrow, hcol⟩ := (lineCopy_covers_iff hr hx hb).mp (of_decide_eq_true hcovers)
    have hj := List.mem_range.mp hj
    have hrow' : c * k ≤ y ∧ y < c * k + k := by omega
    rw [(mem_tile_iff hm).mp hcol, (mem_tile_iff hk).mp hrow']

theorem countP_copies (hm : 0 < m) (hk : 0 < k) {i : Nat} (hi : i < 2 * m * (2 * k) * bpp) :
    (copies idx (2 * m) (2 * k)).countP (·.Covers i) = 1 := by
  obtain ⟨x, y, b, hx, hy, hb, rfl⟩ : ∃ x y b, x < 2 * m ∧ y < 2 * k ∧ b < 4 ∧
      i = 4 * (y * (2 * m) + x) + b := by
    refine ⟨i / 4 % (2 * m), i / 4 / (2 * m), i % 4, Nat.mod_lt _ (by omega), ?_,
      Nat.mod_lt _ (by decide), ?_⟩
    · rw [Nat.div_div_eq_div_mul]
      exact Nat.div_lt_of_lt_mul (by rw [bpp] at hi; linarith)
    · rw [Nat.div_add_mod' (i / 4) (2 * m), Nat.div_add_mod]
  have hsum : ∀ p ∈ tiles 2, ((tiles 2).map fun tile => if p = tile then 1 else 0).sum = 1 := by
    decide
  have hpixel : (x / m, y / k) ∈ tiles 2 := mem_tiles.mpr
    ⟨Nat.div_lt_of_lt_mul (Nat.mul_comm 2 m ▸ hx), Nat.div_lt_of_lt_mul (Nat.mul_comm 2 k ▸ hy)⟩
  rw [copies, List.countP_flatMap, ← hsum _ hpixel]
  refine congrArg List.sum (List.map_congr_left fun tile htile => ?_)
  exact countP_tileCopies hm hk (mem_tiles.mp htile).1 hx hb

/-- A picture with a side of odd length is not drawn at all. -/
theorem getBytes_ok_iff (hidx : ∀ x y, idx x y < colorIdxMax) (hw : 2 ≤ w) (hh : 2 ≤ h) :
    (∃ bytes, getBytes idx w h subSquareMax = .ok bytes) ↔ 2 ∣ w ∧ 2 ∣ h := by
  constructor
  · rintro ⟨bytes, hok⟩
    by_contra hodd
    obtain ⟨copy, hcopy, houtside⟩ := exists_copy_outside hw hh hodd
    rw [getBytes_eq_foldlM hidx hw hh] at hok
    exact absurd (foldlM_paste_inside hok copy hcopy) (not_le.mpr houtside)
  · rintro ⟨⟨m, rfl⟩, k, rfl⟩
    obtain ⟨bytes, hok, -, -⟩ := mandelbrot2_isRaster (by omega : 0 < m) (by omega : 0 < k)
      fun x _ y _ => hidx x y
    exact ⟨bytes, hok⟩

/-- On pictures of two pixels and more in each direction the tiles are pasted as they should be
exactly when both sides are even. -/
theorem tiled_iff (raw : ℚ → ℚ → ℤ) (w h : Nat) (hw : 2 ≤ w) (hh : 2 ≤ h) :
    Tiled (fun x y => colorIdx (raw x y)) w h ↔ 2 ∣ w ∧ 2 ∣ h := by
  have hidx : ∀ x y, colorIdx (raw x y) < colorIdxMax := fun x y => colorIdx_lt (raw x y)
  rw [← getBytes_ok_iff hidx hw hh]
  refine ⟨Tiled.returns, fun hreturns => ?_⟩
  obtain ⟨⟨m, rfl⟩, k, rfl⟩ := (getBytes_ok_iff hidx hw hh).mp hreturns
  have hm : 0 < m := by omega
  have hk : 0 < k := by omega
  refine ⟨fun copy hcopy => ?_, ?_, fun i hi => countP_copies hm hk hi, hreturns⟩
  · obtain ⟨r, -, c, -, j, -, rfl⟩ := mem_copies hcopy
    exact ⟨(c * k + j) * (2 * m) + r * m, rfl⟩
  · obtain ⟨bytes, hok⟩ := hreturns
    exact foldlM_paste_inside ((getBytes_eq_foldlM hidx hw hh).symm.trans hok)

theorem tiled_fourByFour : Tiled (fun _ _ => colorIdx 300) 4 4 :=
  (tiled_iff (fun _ _ => 300) 4 4 (by decide) (by decide)).mpr (by decide)

/-- On three by two pixels the third tile begins in the middle of a pixel, and the copy of the
fourth one fails. -/
theorem threeByTwo_not_tiled :
    (copies (fun _ _ => colorIdx 0) 3 2).map Copy.start = [0, 12, 6, 18] ∧
    (getBytes (fun _ _ => colorIdx 0) 3 2 subSquareMax).toOption.isNone ∧
    ¬ Tiled (fun _ _ => colorIdx 0) 3 2 := by
  have hnone : (getBytes (fun _ _ => colorIdx 0) 3 2 subSquareMax).toOption.isNone := by
    decide +kernel
  refine ⟨by decide +kernel, hnone, fun htiled => ?_⟩
  obtain ⟨bytes, hok⟩ := htiled.returns
  rw [hok] at hnone
  cases hnone

end CodeSlices.Mandelbrot
