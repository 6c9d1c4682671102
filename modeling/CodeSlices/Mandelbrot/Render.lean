import Mathlib.Data.Rat.Floor
import CodeSlices.Lib.Double

/-!
# Rendering in places

`get-bytes` of `lisp/mandelbrot/mandelbrot-class.rkt` and `place-main` of
`lisp/mandelbrot/mandelbrot-worker.rkt`, with the colour index of a pixel as a parameter. A place
sends its lines and an empty list; one that raises sends nothing, and who waits for it waits for
ever. Tile bounds are exact rationals.
-/

namespace CodeSlices.Mandelbrot

inductive Fault
  | contract
  | blocked
  deriving DecidableEq

abbrev Lines := List (List Nat)

/-- `(in-range start end)` -/
def inRange (first last : ℚ) : List ℚ :=
  (List.range ⌈last - first⌉.toNat).map fun (i : Nat) => first + i

/-! ### The worker -/

def caclSquareIdx (w h xs xe ys : ℚ) : ℤ :=
  let xRes := w / (xe - xs)
  Double.roundEven
    ((if xs > 0 then xRes * (w / xs - 1) else 0) + (if ys > 0 then h / ys - 1 else 0))

/-- What the place sends. It divides by `(sub1 width)`, `(sub1 height)` and the sides of the tile,
and its mark has to be a byte. -/
def placeMain (idx : ℚ → ℚ → Nat) (width height : Nat) (xs xe ys ye : ℚ) : List Lines :=
  if width = 1 ∨ height = 1 ∨ xe = xs ∨ ye = ys then []
  else
    let mark := 97 + caclSquareIdx width height xs xe ys
    if 0 ≤ mark ∧ mark < 256 then
      [(inRange ys ye).map fun y => (inRange xs xe).map fun x => idx x y, []]
    else []

/-! ### The bytes of the picture -/

structure Bytes where
  size : Nat
  get : Nat → UInt8

def makeBytes (size : Nat) : Bytes := ⟨size, fun _ => 0⟩

/-- `(bytes-copy! dest dest-start src)` -/
def bytesCopy (dest : Bytes) (destStart : ℚ) (src : List UInt8) : Except Fault Bytes :=
  let start := destStart.num.toNat
  if destStart.den = 1 ∧ 0 ≤ destStart.num ∧ start + src.length ≤ dest.size then
    .ok { dest with
      get := fun i =>
        if start ≤ i ∧ i < start + src.length then src.getD (i - start) 0 else dest.get i }
  else .error .contract

def bpp : Nat := 4

def colorIdxMax : Nat := 255

def color (n : Nat) : List UInt8 := [255, UInt8.ofNat n, UInt8.ofNat n, UInt8.ofNat n]

/-- `(gen-color #t)` -/
def colors : List (List UInt8) := (List.range colorIdxMax).map color

/-- `(list-ref colors idx)` for each index of a line, appended. -/
def lineData : List Nat → Except Fault (List UInt8)
  | [] => .ok []
  | idx :: line =>
      match colors[idx]? with
      | none => .error .contract
      | some bytes => do
          let data ← lineData line
          .ok (bytes ++ data)

/-- The loop over the lines of a tile, as far as there are lines and rows. -/
def lineLoop (width : Nat) (xs ys : ℚ) : List ℚ → Lines → Bytes → Except Fault Bytes
  | y :: rows, lineRes :: lines, bytes => do
      let byteSquarePos := (width * ys + xs) * bpp
      let byteLinePos := byteSquarePos + width * (y - ys) * bpp
      let data ← lineData lineRes
      let bytes ← bytesCopy bytes byteLinePos data
      lineLoop width xs ys rows lines bytes
  | _, _, bytes => .ok bytes

/-- The places, by the messages that are still to get from them, and the bytes. -/
structure State where
  pls : List (List Lines)
  bytes : Bytes

/-- `bloop`: get the next message of a place and copy its lines into the picture. -/
def bloop (width : Nat) (xs ys ye : ℚ) (pl : Nat) (s : State) : Except Fault State :=
  match s.pls[pl]? with
  | none => .error .contract
  | some [] => .error .blocked
  | some (allRes :: rest) => do
      let bytes ← lineLoop width xs ys (inRange ys ye) allRes s.bytes
      .ok ⟨s.pls.set pl rest, bytes⟩

/-- `(for* ([r count] [c count]) ...)` -/
def tiles (count : Nat) : List (Nat × Nat) :=
  (List.range count).flatMap fun r => (List.range count).map fun c => (r, c)

def createPlaces (idx : ℚ → ℚ → Nat) (width height count : Nat) : List (List Lines) :=
  (tiles count).map fun (r, c) =>
    let yStep : ℚ := height / count
    let xStep : ℚ := width / count
    placeMain idx width height (r * xStep) ((r + 1) * xStep) (c * yStep) ((c + 1) * yStep)

def collect (width height count : Nat) (s : State) (tile : Nat × Nat) : Except Fault State :=
  let yStep : ℚ := height / count
  let xStep : ℚ := width / count
  let pl := tile.1 * 2 + tile.2
  bloop width (tile.1 * xStep) (tile.2 * yStep) ((tile.2 + 1) * yStep) pl s

/-- `get-bytes`, with `sub-square-max` as `count`. -/
def getBytes (idx : ℚ → ℚ → Nat) (width height count : Nat) : Except Fault Bytes := do
  let s ← (tiles count).foldlM (collect width height count)
    ⟨createPlaces idx width height count, makeBytes (width * height * bpp)⟩
  .ok s.bytes

/-- `mandelbrot2` of `lisp/mandelbrot/mandelbrot.rkt` -/
def mandelbrot2 (idx : ℚ → ℚ → Nat) (width height : Nat) : Except Fault Bytes :=
  getBytes idx width height 2

/-- The four bytes of each pixel are those of its colour, row by row. -/
def IsRaster (idx : ℚ → ℚ → Nat) (width height : Nat) (result : Except Fault Bytes) : Prop :=
  ∃ bytes, result = .ok bytes ∧ bytes.size = width * height * bpp ∧
    ∀ x < width, ∀ y < height, ∀ b < bpp,
      bytes.get (bpp * (y * width + x) + b) = (color (idx x y)).getD b 0

end CodeSlices.Mandelbrot
