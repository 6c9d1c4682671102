import CodeSlices.Mandelbrot.Tiles
import CodeSlices.Mandelbrot.Zoom

/-!
# Viewers

The bitmaps of `mandelbrot%` and `canvas-box%` of `lisp/mandelbrot/mandelbrot-class.rkt`, which are
drawn anew only when the viewport or the size has changed, and the windows of
`lisp/mandelbrot/mandelbrot-ui.rkt`, which zoom and hand their viewports on. A handler that raises
ends there, and the next event finds what it has left behind. A place whose colour index raises
sends nothing, and a handler that waits for it is the last one. Markers and messages are left out,
and the point of an event may be any point.
-/

namespace CodeSlices.Mandelbrot

/-! ### Places that may not answer -/

section Places

variable (idx : ℚ → ℚ → Option Nat)

/-- The colour indices of pixels that have one. -/
def indexOf (x y : ℚ) : Nat := (idx x y).getD 0

/-- What a place sends: nothing if the colour index of one of its pixels raises. -/
def placeAnswer (width height : Nat) (xs xe ys ye : ℚ) : List Lines :=
  if ∀ y ∈ inRange ys ye, ∀ x ∈ inRange xs xe, (idx x y).isSome then
    placeMain (indexOf idx) width height xs xe ys ye
  else []

def createAnswers (width height count : Nat) : List (List Lines) :=
  (tiles count).map fun (r, c) =>
    let yStep : ℚ := height / count
    let xStep : ℚ := width / count
    placeAnswer idx width height (r * xStep) ((r + 1) * xStep) (c * yStep) ((c + 1) * yStep)

/-- `get-bytes`, which waits for one place after another. -/
def getBytesOf (width height count : Nat) : Except Fault Bytes := do
  let s ← (tiles count).foldlM (collect width height count)
    ⟨createAnswers idx width height count, makeBytes (width * height * bpp)⟩
  .ok s.bytes

/-- The place of a tile answers. -/
def TileAnswers (m k : Nat) (tile : Nat × Nat) : Prop :=
  ∀ y ∈ inRange (tile.2 * k : Nat) (tile.2 * k + k : Nat),
    ∀ x ∈ inRange (tile.1 * m : Nat) (tile.1 * m + m : Nat), (idx x y).isSome

variable {idx} {n m k : Nat}

instance (m k : Nat) (tile : Nat × Nat) : Decidable (TileAnswers idx m k tile) :=
  inferInstanceAs (Decidable (∀ _ ∈ _, _))

theorem createAnswers_eq (hn : 0 < n) : createAnswers idx (n * m) (n * k) n =
    (tiles n).map fun tile => if TileAnswers idx m k tile then
      placeMain (indexOf idx) (n * m) (n * k) (tile.1 * m : Nat) (tile.1 * m + m : Nat)
        (tile.2 * k : Nat) (tile.2 * k + k : Nat) else [] := by
  simp only [createAnswers, placeAnswer, tileBound_eq hn, tileEnd_eq hn]
  rfl

theorem createAnswers_of_all (hn : 0 < n) (hall : ∀ tile ∈ tiles n, TileAnswers idx m k tile) :
    createAnswers idx (n * m) (n * k) n = createPlaces (indexOf idx) (n * m) (n * k) n := by
  rw [createAnswers_eq hn, createPlaces_eq hn]
  exact List.map_congr_left fun tile htile => if_pos (hall tile htile)

/-- A place of a picture of one or four tiles sends nothing or its tile. -/
theorem createAnswers_getElem? (hn : 0 < n) (htwo : n ≤ 2) (hm : 0 < m) (hk : 0 < k)
    (hw : n * m ≠ 1) (hh : n * k ≠ 1) {tile : Nat × Nat} (htile : tile ∈ tiles n) :
    (createAnswers idx (n * m) (n * k) n)[tile.1 * 2 + tile.2]? =
      some (if TileAnswers idx m k tile then [tileLines (indexOf idx) m k tile.1 tile.2, []]
        else []) := by
  obtain ⟨hr, hc⟩ := mem_tiles.mp htile
  have hmark := caclSquareIdx_eq hm hk htwo hr hc
  have hplace := @placeMain_eq (indexOf idx) m k hm hk (n * m) (n * k) tile.1 tile.2
  rw [if_pos ⟨hw, hh, by omega, by omega⟩] at hplace
  rw [createAnswers_eq hn, List.getElem?_map, tiles_getElem? htwo htile, Option.map_some, hplace]

theorem natCast_mem_inRange {first len x : Nat} (hleft : first ≤ x) (hright : x < first + len) :
    (x : ℚ) ∈ inRange first (first + len : Nat) := by
  rw [inRange_natCast]
  refine List.mem_map.mpr ⟨x - first, List.mem_range.mpr (by omega), ?_⟩
  rw [Nat.add_sub_cancel' hleft]

/-- A place that sends nothing is waited for, once the tiles before it are pasted. -/
theorem collect_foldlM_blocked {idx : ℚ → ℚ → Nat} (hm : 0 < m) (hk : 0 < k)
    (hidx : ∀ x < n * m, ∀ y < n * k, idx x y < colorIdxMax) {ts : List (Nat × Nat)}
    (hts : ∀ tile ∈ ts, tile.1 < n ∧ tile.2 < n)
    (hnodup : (ts.map fun tile => tile.1 * 2 + tile.2).Nodup) {s : State}
    (hpls : ∀ tile ∈ ts, s.pls[tile.1 * 2 + tile.2]? = some [] ∨
      ∃ rest, s.pls[tile.1 * 2 + tile.2]? = some (tileLines idx m k tile.1 tile.2 :: rest))
    (hempty : ∃ tile ∈ ts, s.pls[tile.1 * 2 + tile.2]? = some [])
    (hsize : s.bytes.size = n * m * (n * k) * bpp) :
    ts.foldlM (collect (n * m) (n * k) n) s = .error .blocked := by
  induction ts generalizing s with
  | nil =>
      obtain ⟨tile, htile, -⟩ := hempty
      exact absurd htile List.not_mem_nil
  | cons tile ts ih =>
      obtain ⟨htile, hts⟩ := List.forall_mem_cons.mp hts
      obtain ⟨hpl, hpls⟩ := List.forall_mem_cons.mp hpls
      obtain ⟨hnew, hnodup⟩ := List.nodup_cons.mp hnodup
      rw [List.foldlM_cons]
      rcases hpl with hpl | ⟨rest, hpl⟩
      · rw [collect_eq (Nat.zero_lt_of_lt htile.1), bloop_blocked hpl, error_bind]
      · obtain ⟨bytes, hcollect, hsize₁, -⟩ := collect_spec hm hk hidx htile hpl hsize
        have hkeep : ∀ other ∈ ts, (s.pls.set (tile.1 * 2 + tile.2) rest)[
            other.1 * 2 + other.2]? = s.pls[other.1 * 2 + other.2]? :=
          fun other hother => getElem?_set_of_notMem hnew s.pls rest hother
        have hempty₁ : ∃ other ∈ ts, s.pls[other.1 * 2 + other.2]? = some [] := by
          obtain ⟨other, hother, hnone⟩ := hempty
          rcases List.mem_cons.mp hother with rfl | hother
          · exact nomatch hpl.symm.trans hnone
          · exact ⟨other, hother, hnone⟩
        rw [hcollect, ok_bind]
        refine ih hts hnodup ?_ ?_ hsize₁
        · intro other hother
          rw [hkeep other hother]
          exact hpls other hother
        · obtain ⟨other, hother, hnone⟩ := hempty₁
          exact ⟨other, hother, (hkeep other hother).trans hnone⟩

theorem isSome_of_tiles (hm : 0 < m) (hk : 0 < k)
    (hall : ∀ tile ∈ tiles n, TileAnswers idx m k tile) {x y : Nat} (hx : x < n * m)
    (hy : y < n * k) : (idx x y).isSome := by
  have htile : (x / m, y / k) ∈ tiles n := mem_tiles.mpr
    ⟨Nat.div_lt_of_lt_mul (Nat.mul_comm n m ▸ hx), Nat.div_lt_of_lt_mul (Nat.mul_comm n k ▸ hy)⟩
  obtain ⟨hleft, hright⟩ := (mem_tile_iff hm).mpr (rfl : x / m = x / m)
  obtain ⟨htop, hbottom⟩ := (mem_tile_iff hk).mpr (rfl : y / k = y / k)
  exact hall _ htile y (natCast_mem_inRange htop hbottom) x (natCast_mem_inRange hleft hright)

/-- A tile whose place sends nothing is waited for. -/
theorem getBytesOf_blocked (hn : 0 < n) (htwo : n ≤ 2) (hm : 0 < m) (hk : 0 < k)
    (hindex : ∀ x y, indexOf idx x y < colorIdxMax) (hw : n * m ≠ 1) (hh : n * k ≠ 1)
    (hnot : ∃ tile ∈ tiles n, ¬ TileAnswers idx m k tile) :
    getBytesOf idx (n * m) (n * k) n = .error .blocked := by
  have hget : ∀ tile ∈ tiles n,
      (createAnswers idx (n * m) (n * k) n)[tile.1 * 2 + tile.2]? =
        some (if TileAnswers idx m k tile then [tileLines (indexOf idx) m k tile.1 tile.2, []]
          else []) :=
    fun _ htile => createAnswers_getElem? hn htwo hm hk hw hh htile
  have hblocked : (tiles n).foldlM (collect (n * m) (n * k) n)
      ⟨createAnswers idx (n * m) (n * k) n, makeBytes (n * m * (n * k) * bpp)⟩ =
        .error .blocked := by
    refine collect_foldlM_blocked hm hk (fun x _ y _ => hindex x y)
      (fun tile htile => mem_tiles.mp htile) (tiles_places_nodup htwo) ?_ ?_ rfl
    · intro tile htile
      by_cases hanswers : TileAnswers idx m k tile
      · exact Or.inr ⟨_, (hget tile htile).trans (congrArg some (if_pos hanswers))⟩
      · exact Or.inl ((hget tile htile).trans (congrArg some (if_neg hanswers)))
    · obtain ⟨tile, htile, hnot⟩ := hnot
      exact ⟨tile, htile, (hget tile htile).trans (congrArg some (if_neg hnot))⟩
  rw [getBytesOf, hblocked, error_bind]

/-- A picture of one or four tiles is drawn if every pixel has an index, and else waited for. -/
theorem getBytesOf_cases (hn : 0 < n) (htwo : n ≤ 2) (hm : 0 < m) (hk : 0 < k)
    (hidx : ∀ x y, ∀ i ∈ idx x y, i < colorIdxMax) (hw : n * m ≠ 1) (hh : n * k ≠ 1) :
    getBytesOf idx (n * m) (n * k) n = .error .blocked ∨
      (∀ x < n * m, ∀ y < n * k, (idx x y).isSome) ∧
        IsRaster (indexOf idx) (n * m) (n * k) (getBytesOf idx (n * m) (n * k) n) := by
  have hindex : ∀ x y, indexOf idx x y < colorIdxMax := by
    intro x y
    rw [indexOf]
    cases hvalue : idx x y with
    | none => exact (by decide : 0 < colorIdxMax)
    | some i => exact hidx x y i hvalue
  by_cases hall : ∀ tile ∈ tiles n, TileAnswers idx m k tile
  · refine Or.inr ⟨fun x hx y hy => isSome_of_tiles hm hk hall hx hy, ?_⟩
    rw [getBytesOf, createAnswers_of_all hn hall]
    exact isRaster_of_two hn htwo hm hk (fun x _ y _ => hindex x y) hw hh
  · refine Or.inl (getBytesOf_blocked hn htwo hm hk hindex hw hh ?_)
    obtain ⟨tile, hnot⟩ := not_forall.mp hall
    exact ⟨tile, Classical.not_imp.mp hnot⟩

end Places

/-! ### One viewer -/

/-- A `bitmap%`, blank as long as it has no pixels. -/
structure Bitmap where
  width : Nat
  height : Nat
  pixels : Option Bytes

def createBitmap (w h : Nat) : Bitmap := ⟨w, h, none⟩

/-- What the places are told about the picture. -/
structure View (K : Type) where
  q1 : Point K
  q2 : Point K
  maxIteration : ℤ
  width : Nat
  height : Nat

/-- A `canvas-box%`: its `mandelbrot%` with the bitmap of this, and the bitmap it shows. -/
structure Viewer (K : Type) where
  mb : Mb K
  bitmap : Bitmap
  shown : Bitmap

section Drawing

variable {K : Type}

def Mb.view (mb : Mb K) : View K := ⟨mb.q1, mb.q2, mb.maxIteration, mb.width, mb.height⟩

variable (idx : View K → ℚ → ℚ → Option Nat)

/-- `get-bitmap`, with whether it returns or raises; `none` where it waits for ever. -/
def getBitmap (viewer : Viewer K) : Option (Bool × Viewer K) :=
  let refreshed := viewer.mb.refresh
  if refreshed.1 then
    match getBytesOf (idx refreshed.2.view) refreshed.2.width refreshed.2.height subSquareMax with
    | .ok bytes =>
        some (true, { viewer with
          mb := refreshed.2, bitmap := { viewer.bitmap with pixels := some bytes } })
    | .error .contract => some (false, { viewer with mb := refreshed.2 })
    | .error .blocked => none
  else some (true, { viewer with mb := refreshed.2 })

/-- `update-view`, with whether it returns or raises. -/
def updateView (viewer : Viewer K) : Option (Bool × Viewer K) :=
  (getBitmap idx viewer).map fun got =>
    if got.1 then (true, { got.2 with shown := got.2.bitmap }) else got

def setViewsize (w h : Nat) (viewer : Viewer K) : Viewer K :=
  if viewer.mb.width ≠ w ∨ viewer.mb.height ≠ h then
    { viewer with mb := viewer.mb.setViewsize w h, bitmap := createBitmap w h }
  else viewer

def onSize (w h : Nat) (viewer : Viewer K) : Option (Viewer K) :=
  (updateView idx (setViewsize w h viewer)).map Prod.snd

/-- The bitmap is the picture of the view that a `mandelbrot%` has. -/
def Draws (bitmap : Bitmap) (mb : Mb K) : Prop :=
  bitmap.width = mb.width ∧ bitmap.height = mb.height ∧ ∃ bytes, bitmap.pixels = some bytes ∧
    (∀ x < mb.width, ∀ y < mb.height, (idx mb.view x y).isSome) ∧
    IsRaster (indexOf (idx mb.view)) mb.width mb.height (.ok bytes)

/-- Nothing is left to be drawn, and what can be drawn is shown: a picture with two even sides. -/
structure Settled (viewer : Viewer K) : Prop where
  viewport : viewer.mb.viewportChanged = false
  viewsize : viewer.mb.viewsizeChanged = false
  shown : 2 ∣ viewer.mb.width → 2 ∣ viewer.mb.height → Draws idx viewer.shown viewer.mb

/-- A viewer whose picture has some pixels, and whose bitmap has the same sides. -/
structure Fits (viewer : Viewer K) : Prop where
  width_pos : 0 < viewer.mb.width
  height_pos : 0 < viewer.mb.height
  width : viewer.bitmap.width = viewer.mb.width
  height : viewer.bitmap.height = viewer.mb.height

/-- A picture is to be drawn, or is drawn already. -/
def Ready (viewer : Viewer K) : Prop :=
  viewer.mb.refresh.1 = true ∨
    (2 ∣ viewer.mb.width → 2 ∣ viewer.mb.height → Draws idx viewer.bitmap viewer.mb)

/-- What every handler keeps. -/
structure Kept (viewer : Viewer K) : Prop where
  fits : Fits viewer
  ready : Ready idx viewer

/-- The colour indices of the pixels, where there are any, are those of colours. -/
def Coloured : Prop := ∀ view x y, ∀ i ∈ idx view x y, i < colorIdxMax

variable {idx} {viewer viewer' : Viewer K} {returned : Bool}

theorem getBytesOf_even (hidx : Coloured idx) (view : View K) {w h : Nat} (hw : 0 < w) (hh : 0 < h)
    (hweven : 2 ∣ w) (hheven : 2 ∣ h) :
    getBytesOf (idx view) w h subSquareMax = .error .blocked ∨
      (∀ x < w, ∀ y < h, (idx view x y).isSome) ∧
        IsRaster (indexOf (idx view)) w h (getBytesOf (idx view) w h subSquareMax) := by
  obtain ⟨m, rfl⟩ := hweven
  obtain ⟨k, rfl⟩ := hheven
  exact getBytesOf_cases (by decide) (Nat.le_refl 2) (by omega) (by omega) (hidx view) (by omega)
    (by omega)

theorem Mb.setViewport_cases [DecidableEq K] (q1 q2 : Point K) (mb : Mb K) :
    (mb.q1 = q1 ∧ mb.q2 = q2 ∧ mb.setViewport q1 q2 = mb) ∨
      mb.setViewport q1 q2 = { mb with q1 := q1, q2 := q2, viewportChanged := true } := by
  rw [setViewport]
  split_ifs with hnew
  · exact Or.inr rfl
  · obtain ⟨hq1, hq2⟩ := not_or.mp hnew
    exact Or.inl ⟨not_not.mp hq1, not_not.mp hq2, rfl⟩

theorem Mb.refresh_eq_of_unchanged {mb : Mb K} (hunchanged : mb.refresh.1 = false) :
    mb.refresh.2 = mb := by
  by_cases hchanged : (mb.viewportChanged || mb.viewsizeChanged) = true
  · rw [refresh, if_pos hchanged] at hunchanged
    exact absurd hunchanged.symm Bool.false_ne_true
  · rw [refresh, if_neg hchanged]

theorem Mb.refresh_flags (mb : Mb K) :
    mb.refresh.2.viewportChanged = false ∧ mb.refresh.2.viewsizeChanged = false := by
  rw [refresh]
  split_ifs with hchanged
  · exact ⟨rfl, rfl⟩
  · exact Bool.or_eq_false_iff.mp (Bool.eq_false_iff.mpr hchanged)

@[simp]
theorem Mb.refresh_view (mb : Mb K) : mb.refresh.2.view = mb.view := by
  rw [refresh]
  split_ifs <;> rfl

@[simp]
theorem Mb.refresh_width (mb : Mb K) : mb.refresh.2.width = mb.width :=
  congrArg View.width mb.refresh_view

@[simp]
theorem Mb.refresh_height (mb : Mb K) : mb.refresh.2.height = mb.height :=
  congrArg View.height mb.refresh_view

/-- What is drawn depends on the view only. -/
theorem Draws.of_view {bitmap : Bitmap} {mb mb' : Mb K} (hdraws : Draws idx bitmap mb)
    (hview : mb.view = mb'.view) : Draws idx bitmap mb' := by
  obtain ⟨hwidth, hheight, bytes, hpixels, hanswers, hraster⟩ := hdraws
  have hw : mb.width = mb'.width := congrArg View.width hview
  have hh : mb.height = mb'.height := congrArg View.height hview
  rw [hview, hw, hh] at hanswers hraster
  exact ⟨hwidth.trans hw, hheight.trans hh, bytes, hpixels, hanswers, hraster⟩

/-- What `update-view` does to a viewer when it comes back. -/
theorem updateView_cases (hupdate : updateView idx viewer = some (returned, viewer')) :
    (viewer.mb.refresh.1 = false ∧
      viewer' = { mb := viewer.mb.refresh.2, bitmap := viewer.bitmap, shown := viewer.bitmap }) ∨
    (∃ bytes, getBytesOf (idx viewer.mb.view) viewer.mb.width viewer.mb.height subSquareMax =
        .ok bytes ∧
      viewer' = { mb := viewer.mb.refresh.2, bitmap := { viewer.bitmap with pixels := some bytes },
                  shown := { viewer.bitmap with pixels := some bytes } }) ∨
    getBytesOf (idx viewer.mb.view) viewer.mb.width viewer.mb.height subSquareMax =
        .error .contract ∧ viewer' = { viewer with mb := viewer.mb.refresh.2 } := by
  have hsame : getBytesOf (idx viewer.mb.refresh.2.view) viewer.mb.refresh.2.width
      viewer.mb.refresh.2.height subSquareMax =
        getBytesOf (idx viewer.mb.view) viewer.mb.width viewer.mb.height subSquareMax := by
    rw [Mb.refresh_view, Mb.refresh_width, Mb.refresh_height]
  rw [updateView, getBitmap, hsame] at hupdate
  cases hchanged : viewer.mb.refresh.1 with
  | false =>
      rw [hchanged, if_neg Bool.false_ne_true] at hupdate
      exact Or.inl ⟨rfl, (Prod.mk.inj (Option.some.inj hupdate)).2.symm⟩
  | true =>
      refine Or.inr ?_
      rw [hchanged, if_pos rfl] at hupdate
      cases hbytes : getBytesOf (idx viewer.mb.view) viewer.mb.width viewer.mb.height
          subSquareMax with
      | ok bytes =>
          rw [hbytes] at hupdate
          exact Or.inl ⟨bytes, rfl, (Prod.mk.inj (Option.some.inj hupdate)).2.symm⟩
      | error fault =>
          rw [hbytes] at hupdate
          cases fault with
          | contract => exact Or.inr ⟨rfl, (Prod.mk.inj (Option.some.inj hupdate)).2.symm⟩
          | blocked => exact absurd hupdate.symm (Option.some_ne_none _)

theorem updateView_fits (hfits : Fits viewer)
    (hupdate : updateView idx viewer = some (returned, viewer')) : Fits viewer' := by
  obtain ⟨hw, hh, hwidth, hheight⟩ := hfits
  rcases updateView_cases hupdate with ⟨-, rfl⟩ | ⟨_, -, rfl⟩ | ⟨-, rfl⟩
  all_goals
    exact ⟨hw.trans_eq (Mb.refresh_width _).symm, hh.trans_eq (Mb.refresh_height _).symm,
      hwidth.trans (Mb.refresh_width _).symm, hheight.trans (Mb.refresh_height _).symm⟩

/-- A viewer that comes back from `update-view` is settled, whether that has returned or raised. -/
theorem updateView_kept (hidx : Coloured idx) (hkept : Kept idx viewer)
    (hupdate : updateView idx viewer = some (returned, viewer')) :
    Kept idx viewer' ∧ Settled idx viewer' := by
  obtain ⟨hfits, hready⟩ := hkept
  have hfits' := updateView_fits hfits hupdate
  suffices hready : Ready idx viewer' ∧ Settled idx viewer' from
    ⟨⟨hfits', hready.1⟩, hready.2⟩
  have heven := getBytesOf_even hidx viewer.mb.view hfits.width_pos hfits.height_pos
  obtain ⟨hviewport, hviewsize⟩ := viewer.mb.refresh_flags
  rcases updateView_cases hupdate with ⟨hchanged, rfl⟩ | ⟨bytes, hbytes, rfl⟩ | ⟨hbytes, rfl⟩
  · have hdraws := hready.resolve_left (Bool.eq_false_iff.mp hchanged)
    rw [Mb.refresh_eq_of_unchanged hchanged] at hviewport hviewsize ⊢
    exact ⟨Or.inr hdraws, hviewport, hviewsize, hdraws⟩
  · have hdraws : 2 ∣ viewer.mb.refresh.2.width → 2 ∣ viewer.mb.refresh.2.height →
        Draws idx { viewer.bitmap with pixels := some bytes } viewer.mb.refresh.2 := by
      rw [Mb.refresh_width, Mb.refresh_height]
      intro hweven hheven
      rcases heven hweven hheven with hblocked | ⟨hanswers, hdrawn⟩
      · exact nomatch hbytes.symm.trans hblocked
      · rw [hbytes] at hdrawn
        exact Draws.of_view ⟨hfits.width, hfits.height, bytes, rfl, hanswers, hdrawn⟩
          (Mb.refresh_view _).symm
    exact ⟨Or.inr hdraws, hviewport, hviewsize, hdraws⟩
  · have hodd : 2 ∣ viewer.mb.refresh.2.width → ¬ 2 ∣ viewer.mb.refresh.2.height := by
      rw [Mb.refresh_width, Mb.refresh_height]
      intro hweven hheven
      rcases heven hweven hheven with hblocked | ⟨-, _, hok, -⟩
      · exact nomatch hbytes.symm.trans hblocked
      · exact nomatch hbytes.symm.trans hok
    exact ⟨Or.inr fun hweven hheven => absurd hheven (hodd hweven), hviewport, hviewsize,
      fun hweven hheven => absurd hheven (hodd hweven)⟩

theorem Kept.setViewsize {w h : Nat} (hw : 0 < w) (hh : 0 < h) (hkept : Kept idx viewer) :
    Kept idx (setViewsize w h viewer) := by
  rw [Mandelbrot.setViewsize]
  split_ifs with hsize
  · have hset : viewer.mb.setViewsize w h =
        { viewer.mb with width := w, height := h, viewsizeChanged := true } := if_pos hsize
    rw [hset]
    refine ⟨⟨hw, hh, rfl, rfl⟩, Or.inl ?_⟩
    rw [Mb.refresh, Bool.or_true, if_pos rfl]
  · exact hkept

variable {ι : Type}

abbrev Viewers (ι K : Type) := ι → Viewer K

variable (idx) in
/-- Each viewer is settled in the end, or as it was at first. -/
def Drawn (viewers viewers' : Viewers ι K) : Prop :=
  ∀ k, Kept idx (viewers' k) ∧ (Settled idx (viewers' k) ∨ viewers' k = viewers k)

variable {viewers viewers' viewers'' : Viewers ι K}

theorem Drawn.trans (hfirst : Drawn idx viewers viewers') (hsecond : Drawn idx viewers' viewers'') :
    Drawn idx viewers viewers'' := by
  intro k
  obtain ⟨hkept, hsettled | hsame⟩ := hsecond k
  · exact ⟨hkept, Or.inl hsettled⟩
  · rw [hsame]
    exact hfirst k

theorem drawn_update [DecidableEq ι] (hkept : ∀ k, Kept idx (viewers k)) {k : ι}
    {new : Viewer K} (hnew : Kept idx new ∧ Settled idx new) :
    Drawn idx viewers (Function.update viewers k new) := by
  intro j
  rcases eq_or_ne j k with rfl | hne
  · rw [Function.update_self]
    exact ⟨hnew.1, Or.inl hnew.2⟩
  · rw [Function.update_of_ne hne]
    exact ⟨hkept j, Or.inr rfl⟩

theorem Drawn.kept (hdrawn : Drawn idx viewers viewers') (k : ι) : Kept idx (viewers' k) :=
  (hdrawn k).1

/-- The target of a viewer, with the viewport handed over to it. -/
def transferred [DecidableEq K] (viewers : Viewers ι K) (k target : ι) : Viewer K :=
  { viewers target with mb := transferViewportToTarget (viewers k).mb (viewers target).mb }

theorem transferred_fits [DecidableEq K] (hkept : ∀ k, Kept idx (viewers k)) (k target : ι) :
    Fits (transferred viewers k target) := by
  obtain ⟨hw, hh, hwidth, hheight⟩ := (hkept target).fits
  rcases Mb.setViewport_cases (viewers k).mb.q1 (viewers k).mb.q2 (viewers target).mb with
    ⟨-, -, hset⟩ | hset
  all_goals
    rw [transferred, transferViewportToTarget, hset]
    exact ⟨hw, hh, hwidth, hheight⟩

end Drawing

/-! ### Several viewers -/

variable {ι K : Type} [DecidableEq ι] [DecidableEq K] [Mul K] [Div K] [Zero K] [Add K] [Sub K]
  [IntCast K]

inductive Event (ι K : Type)
  | onSize (k : ι) (w h : Nat)
  | zoomMb (k : ι) (inward : Bool) (x y : K)
  | zoomToTarget (k target : ι) (nx ny : K)

/-- The zoom neither raises nor leaves the viewport as it is. -/
def Mb.Moves (inward : Bool) (x y : K) (mb : Mb K) : Prop :=
  ∃ new ∈ (mb.zoom inward x y).toOption, new.q1 ≠ mb.q1 ∨ new.q2 ≠ mb.q2

instance (inward : Bool) (x y : K) (mb : Mb K) : Decidable (mb.Moves inward x y) :=
  inferInstanceAs (Decidable (∃ new ∈ _, _))

variable (idx : View K → ℚ → ℚ → Option Nat)

/-- `zoom` of a `canvas-box%` -/
def zoomView (inward : Bool) (x y : K) (viewer : Viewer K) : Option (Viewer K) :=
  match viewer.mb.zoom inward x y with
  | .ok mb => (updateView idx { viewer with mb := mb }).map Prod.snd
  | .error _ => some viewer

def zoomToTarget (k target : ι) (nx ny : K) (viewers : Viewers ι K) : Option (Viewers ι K) := do
  let (returned, viewer) ← updateView idx (viewers k)
  let viewers := Function.update viewers k viewer
  if returned then
    let viewer ← zoomView idx false nx ny (transferred viewers k target)
    return Function.update viewers target viewer
  else
    return viewers

/-- A handler that waits for ever is not followed by another one. -/
def handle (viewers : Viewers ι K) : Event ι K → Option (Viewers ι K)
  | .onSize k w h => (onSize idx w h (viewers k)).map (Function.update viewers k)
  | .zoomMb k inward x y => (zoomView idx inward x y (viewers k)).map (Function.update viewers k)
  | .zoomToTarget k target nx ny => zoomToTarget idx k target nx ny viewers

/-- A size has some pixels, as a bitmap has, and a click moves the viewport that it zooms. -/
def Moved (viewers : Viewers ι K) : Event ι K → Prop
  | .onSize _ w h => 0 < w ∧ 0 < h
  | .zoomMb k inward x y => (viewers k).mb.Moves inward x y
  | .zoomToTarget k target nx ny => ∀ r ∈ updateView idx (viewers k),
      (transferred (Function.update viewers k r.2) k target).mb.Moves false nx ny

instance (viewers : Viewers ι K) : (e : Event ι K) → Decidable (Moved idx viewers e)
  | .onSize _ _ _ => inferInstanceAs (Decidable (_ ∧ _))
  | .zoomMb _ _ _ _ => inferInstanceAs (Decidable (Mb.Moves _ _ _ _))
  | .zoomToTarget k _ _ _ => inferInstanceAs (Decidable (∀ _ ∈ updateView idx (viewers k), _))

variable {idx} {viewer viewer' : Viewer K}

/-- A zoom sets a viewport, scaled, around some point. -/
theorem Mb.zoom_eq {mb new : Mb K} {inward : Bool} {x y : K}
    (hzoom : mb.zoom inward x y = .ok new) :
    ∃ p diff, new = { mb.setViewport (p + diff) (p - diff) with
      maxIteration := nextLimit inward mb.maxIteration } := by
  obtain ⟨xRatio, -, hzoom⟩ := exists_of_bind_eq_ok hzoom
  obtain ⟨yRatio, -, hzoom⟩ := exists_of_bind_eq_ok hzoom
  obtain ⟨diff, -, hzoom⟩ := exists_of_bind_eq_ok hzoom
  let offset : Point K := ⟨(mb.q1 - mb.q2).real * xRatio, (mb.q1 - mb.q2).imag * yRatio⟩
  refine ⟨mb.q1 - offset, diff, ?_⟩
  rw [← Except.ok.inj hzoom, setViewport_maxIteration]

theorem zoomView_kept (hidx : Coloured idx) {inward : Bool} {x y : K} (hfits : Fits viewer)
    (hmoves : viewer.mb.Moves inward x y) (hview : zoomView idx inward x y viewer = some viewer') :
    Kept idx viewer' ∧ Settled idx viewer' := by
  obtain ⟨new, hzoom, hnew⟩ := hmoves
  have hzoom : viewer.mb.zoom inward x y = .ok new := by
    cases hresult : viewer.mb.zoom inward x y with
    | ok mb => rw [hresult] at hzoom; exact congrArg _ (Option.some.inj hzoom)
    | error _ => rw [hresult] at hzoom; exact nomatch hzoom
  obtain ⟨p, diff, rfl⟩ := Mb.zoom_eq hzoom
  rw [zoomView, hzoom] at hview
  obtain ⟨⟨returned, viewer'⟩, hupdate, rfl⟩ := Option.map_eq_some_iff.mp hview
  refine updateView_kept hidx ?_ hupdate
  rcases Mb.setViewport_cases (p + diff) (p - diff) viewer.mb with ⟨hq1, hq2, hset⟩ | hset
  · rw [hset] at hnew
    exact absurd hnew (by simp)
  · rw [hset]
    exact ⟨⟨hfits.width_pos, hfits.height_pos, hfits.width, hfits.height⟩, Or.inl rfl⟩

variable {viewers viewers' : Viewers ι K}

theorem zoomToTarget_drawn (hidx : Coloured idx) (hkept : ∀ k, Kept idx (viewers k)) {k target : ι}
    {nx ny : K} (hmoved : Moved idx viewers (.zoomToTarget k target nx ny))
    (hzoom : zoomToTarget idx k target nx ny viewers = some viewers') :
    Drawn idx viewers viewers' := by
  obtain ⟨⟨returned, viewer⟩, hupdate, hzoom⟩ := Option.bind_eq_some_iff.mp hzoom
  have hupdated : Drawn idx viewers (Function.update viewers k viewer) :=
    drawn_update hkept (updateView_kept hidx (hkept k) hupdate)
  cases returned with
  | false => exact Option.some.inj hzoom ▸ hupdated
  | true =>
      obtain ⟨viewer', hview, hzoom⟩ := Option.bind_eq_some_iff.mp hzoom
      have hmoves := hmoved _ hupdate
      rw [← Option.some.inj hzoom]
      exact hupdated.trans (drawn_update hupdated.kept
        (zoomView_kept hidx (transferred_fits hupdated.kept k target) hmoves hview))

theorem handle_drawn (hidx : Coloured idx) (hkept : ∀ k, Kept idx (viewers k)) {e : Event ι K}
    (hmoved : Moved idx viewers e) (hhandle : handle idx viewers e = some viewers') :
    Drawn idx viewers viewers' := by
  cases e with
  | onSize k w h =>
      obtain ⟨hw, hh⟩ := hmoved
      obtain ⟨viewer, hsize, rfl⟩ := Option.map_eq_some_iff.mp hhandle
      obtain ⟨⟨returned, viewer⟩, hupdate, rfl⟩ := Option.map_eq_some_iff.mp hsize
      exact drawn_update hkept (updateView_kept hidx ((hkept k).setViewsize hw hh) hupdate)
  | zoomMb k inward x y =>
      obtain ⟨viewer, hview, rfl⟩ := Option.map_eq_some_iff.mp hhandle
      exact drawn_update hkept (zoomView_kept hidx (hkept k).fits hmoved hview)
  | zoomToTarget k target nx ny => exact zoomToTarget_drawn hidx hkept hmoved hhandle

/-- After any events that are all done with, each viewer shows the picture of its view, or is as it
was at first. -/
theorem settled_of_moved (hidx : Coloured idx) (hkept : ∀ k, Kept idx (viewers k))
    {es : List (Event ι K)} (hmoved : Transition.Guarded (handle idx) (Moved idx) viewers es)
    (hrun : Transition.exec (handle idx) viewers es = some viewers') (k : ι) :
    Settled idx (viewers' k) ∨ viewers' k = viewers k := by
  have hdrawn : Drawn idx viewers viewers' := by
    refine hmoved.invariant (I := Drawn idx viewers) ?_ (fun k => ⟨hkept k, Or.inr rfl⟩) hrun
    intro _ _ _ hdrawn hmoved hhandle
    exact hdrawn.trans (handle_drawn hidx hdrawn.kept hmoved hhandle)
  exact (hdrawn k).2

/-- A viewer with a picture of four by four. -/
def smallViewer : Viewer ℚ :=
  ⟨{ standard with width := 4, height := 4 }, createBitmap 4 4, createBitmap 4 4⟩

/-- The limit as the colour of every pixel, unless the view is a single point. -/
def smallIdx (view : View ℚ) (_ _ : ℚ) : Option Nat :=
  if view.q1 = view.q2 then none else some (view.maxIteration.toNat % 255)

def smallEvents : List (Event Bool ℚ) :=
  [.onSize false 6 4, .zoomToTarget false true 3 2, .zoomMb true true 1 1]

theorem smallEvents_settled : ∃ viewers : Viewers Bool ℚ,
    Transition.exec (handle smallIdx) (fun _ => smallViewer) smallEvents = some viewers ∧
    ∀ k, Settled smallIdx (viewers k) ∨ viewers k = smallViewer := by
  have hguarded : Transition.Guarded (handle smallIdx) (Moved smallIdx) (fun _ => smallViewer)
      smallEvents := by
    decide +kernel
  have hrun : (Transition.exec (handle smallIdx) (fun _ => smallViewer) smallEvents).isSome := by
    decide +kernel
  obtain ⟨viewers, hrun⟩ := Option.isSome_iff_exists.mp hrun
  have hcoloured : Coloured smallIdx := by
    intro view x y i hi
    obtain ⟨-, hi⟩ := Option.ite_none_left_eq_some.mp hi
    rw [← Option.some.inj hi]
    exact Nat.mod_lt _ (by decide)
  have hkept : Kept smallIdx smallViewer := ⟨⟨by decide, by decide, rfl, rfl⟩, Or.inl rfl⟩
  exact ⟨viewers, hrun, settled_of_moved hcoloured (fun _ => hkept) hguarded hrun⟩

end CodeSlices.Mandelbrot
