import Mathlib.Tactic.Ring
import CodeSlices.Lib.Except

/-!
# Frames of the screen

`fb-callback` of `lisp/seven-square.rkt`: a header of thirteen words and `size` bytes of pixels. A
port is the bytes that are still to come, with the end of the stream after them. The checksum of
`openssl/sha1` is a parameter. The window and the viewer are left out.
-/

namespace CodeSlices.SevenSquare

inductive RacketError
  | contract
  deriving DecidableEq

/-- `(read-bytes n fd)`, which is eof at the end. -/
def readBytes (n : Nat) (fd : List UInt8) : Option (List UInt8) × List UInt8 :=
  if n = 0 then (some [], fd)
  else if fd = [] then (none, [])
  else (some (fd.take n), fd.drop n)

def le32ToNumber : List UInt8 → Except RacketError Nat
  | b0 :: b1 :: b2 :: b3 :: _ =>
      .ok (b0.toNat + b1.toNat <<< 8 + b2.toNat <<< 16 + b3.toNat <<< 24)
  | _ => .error .contract

structure Fbinfo where
  version : Nat
  bpp : Nat
  size : Nat
  width : Nat
  height : Nat
  redOffset : Nat
  redLength : Nat
  blueOffset : Nat
  blueLength : Nat
  greenOffset : Nat
  greenLength : Nat
  alphaOffset : Nat
  alphaLength : Nat
  deriving DecidableEq

/-- `(apply fbinfo vals)` -/
def applyFbinfo : List Nat → Except RacketError Fbinfo
  | [version, bpp, size, width, height, redOffset, redLength, blueOffset, blueLength, greenOffset,
      greenLength, alphaOffset, alphaLength] =>
      .ok ⟨version, bpp, size, width, height, redOffset, redLength, blueOffset, blueLength,
        greenOffset, greenLength, alphaOffset, alphaLength⟩
  | _ => .error .contract

/-- One word of the header, 0 at the end of the stream. -/
def readWord (fd : List UInt8) : Except RacketError (Nat × List UInt8) :=
  match readBytes 4 fd with
  | (some val, fd) => do
      let word ← le32ToNumber val
      .ok (word, fd)
  | (none, fd) => .ok (0, fd)

def readWords : Nat → List UInt8 → Except RacketError (List Nat × List UInt8)
  | 0, fd => .ok ([], fd)
  | n + 1, fd => do
      let (word, fd) ← readWord fd
      let (words, fd) ← readWords n fd
      .ok (word :: words, fd)

def readFbinfo (fd : List UInt8) : Except RacketError (Fbinfo × List UInt8) := do
  let (words, fd) ← readWords 13 fd
  let fb ← applyFbinfo words
  .ok (fb, fd)

/-- The bytes of the pixels are the ones last set. -/
structure Bitmap where
  width : Nat
  height : Nat
  pixels : List UInt8
  deriving DecidableEq

/-- `fbhash` is a number at first and then a text. -/
inductive Hash
  | number (n : Nat)
  | text (s : List Char)
  deriving DecidableEq

structure View where
  fbbitmap : Bitmap
  fbhash : Hash
  deriving DecidableEq

def doScale : Bool := true

def doFbChecksumSha1 : Bool := true

def updateBitmapSize (w h : Nat) (view : View) : View :=
  if w = view.fbbitmap.width ∧ h = view.fbbitmap.height then view
  else
    { fbbitmap := ⟨w, h, []⟩
      fbhash := if doScale then .text ['r', 'e', 's', 'e', 't'] else view.fbhash }

def setArgbPixels (w h : Nat) (bytes : List UInt8) (bitmap : Bitmap) : Except RacketError Bitmap :=
  if 4 * w * h ≤ bytes.length then .ok { bitmap with pixels := bytes.take (4 * w * h) }
  else .error .contract

variable (sha1 : List UInt8 → List Char)

def contentChanged (raw : List UInt8) (view : View) : Bool × View :=
  let newhash := if doFbChecksumSha1 then .text (sha1 raw) else view.fbhash
  let changed := decide (view.fbhash ≠ newhash)
  (changed, if changed then { view with fbhash := newhash } else view)

/-- What became of a frame; one that is drawn with the bytes that were set. -/
inductive Outcome
  | drawn (width height : Nat) (pixels : List UInt8)
  | same
  | dropped
  deriving DecidableEq

/-- `draw` of `fb-callback`, with an opaque alpha before the first pixel. -/
def draw (width height : Nat) (raw : List UInt8) (view : View) :
    Except RacketError (Outcome × View) := do
  let view := updateBitmapSize width height view
  let pixels := [255] ++ raw
  let bitmap ← setArgbPixels width height pixels view.fbbitmap
  .ok (.drawn width height pixels, { view with fbbitmap := bitmap })

/-- `(bytes-length raw)` -/
def bytesLength : Option (List UInt8) → Except RacketError Nat
  | some raw => .ok raw.length
  | none => .error .contract

def fbCallback (fd : List UInt8) (view : View) : Except RacketError (Outcome × View) := do
  let (fb, fd) ← readFbinfo fd
  let raw := (readBytes fb.size fd).1
  if 0 < fb.width ∧ 0 < fb.height then
    let length ← bytesLength raw
    if fb.size = length then
      let (changed, view) := contentChanged sha1 (raw.getD []) view
      if changed then draw fb.width fb.height (raw.getD []) view else .ok (.same, view)
    else .ok (.dropped, view)
  else
    let _ ← bytesLength raw
    .ok (.dropped, view)

/-! ### What is in the stream -/

/-- The word of the header with number `i`, 0 when it is missing. -/
def headerWord (fd : List UInt8) (i : Nat) : Nat :=
  match fd.drop (4 * i) with
  | b0 :: b1 :: b2 :: b3 :: _ => b0.toNat + 256 * b1.toNat + 65536 * b2.toNat + 16777216 * b3.toNat
  | _ => 0

def frameSize (fd : List UInt8) : Nat := headerWord fd 2

def frameWidth (fd : List UInt8) : Nat := headerWord fd 3

def frameHeight (fd : List UInt8) : Nat := headerWord fd 4

/-- The pixels that are there, as many as the header says at most. -/
def payload (fd : List UInt8) : List UInt8 := (fd.drop 52).take (frameSize fd)

/-- The frame is drawn, complete and with bytes for all its pixels, or nothing changes. -/
def Graceful (fd : List UInt8) (view : View) : Prop :=
  ∃ outcome view', fbCallback sha1 fd view = .ok (outcome, view') ∧
    match outcome with
    | .drawn width height pixels => width = frameWidth fd ∧ height = frameHeight fd ∧
        pixels = 255 :: payload fd ∧ (payload fd).length = frameSize fd ∧
        4 * width * height ≤ pixels.length
    | .same | .dropped => view' = view

/-- The stream does not end within a word of the header, nor right after a header that asks for
pixels, and a complete frame that is new has bytes for all its pixels but perhaps one. -/
def WellCut (fd : List UInt8) (view : View) : Prop :=
  (4 ∣ fd.length ∨ 52 ≤ fd.length) ∧ (frameSize fd = 0 ∨ 52 < fd.length) ∧
    (0 < frameWidth fd → 0 < frameHeight fd → (payload fd).length = frameSize fd →
      view.fbhash ≠ .text (sha1 (payload fd)) →
        4 * frameWidth fd * frameHeight fd ≤ frameSize fd + 1)

variable {sha1} {fd : List UInt8} {view : View} {n : Nat}

/-! ### The header -/

theorem readBytes_of_ne (hn : n ≠ 0) (hfd : fd ≠ []) :
    readBytes n fd = (some (fd.take n), fd.drop n) := by
  rw [readBytes, if_neg hn, if_neg hfd]

theorem headerWord_succ (fd : List UInt8) (i : Nat) :
    headerWord fd (i + 1) = headerWord (fd.drop 4) i := by
  have hplace : 4 * (i + 1) = 4 + 4 * i := by ring
  rw [headerWord, headerWord, List.drop_drop, hplace]

theorem readWord_eq (hfd : fd = [] ∨ 4 ≤ fd.length) :
    readWord fd = .ok (headerWord fd 0, fd.drop 4) := by
  rcases hfd with rfl | hlength
  · rfl
  · obtain ⟨b0, b1, b2, b3, rest, rfl⟩ : ∃ b0 b1 b2 b3 rest, fd = b0 :: b1 :: b2 :: b3 :: rest := by
      match fd, hlength with
      | b0 :: b1 :: b2 :: b3 :: rest, _ => exact ⟨b0, b1, b2, b3, rest, rfl⟩
    have hword : le32ToNumber [b0, b1, b2, b3] =
        .ok (headerWord (b0 :: b1 :: b2 :: b3 :: rest) 0) := by
      simp only [le32ToNumber, headerWord, Nat.mul_zero, List.drop_zero, Nat.shiftLeft_eq]
      congr 1
      ring
    rw [readWord, readBytes_of_ne (by decide) (List.cons_ne_nil _ _)]
    exact congrArg (· >>= fun word => .ok (word, rest)) hword

theorem readWord_error (hne : fd ≠ []) (hlength : fd.length < 4) :
    readWord fd = .error .contract := by
  rw [readWord, readBytes_of_ne (by decide) hne, List.take_of_length_le (by omega)]
  match fd, hne, hlength with
  | [_], _, _ => rfl
  | [_, _], _, _ => rfl
  | [_, _, _], _, _ => rfl

/-- A header is read from a stream that does not end within a word of it. -/
theorem readWords_eq (hfd : 4 ∣ fd.length ∨ 4 * n ≤ fd.length) :
    readWords n fd = .ok ((List.range n).map (headerWord fd), fd.drop (4 * n)) := by
  induction n generalizing fd with
  | zero => rfl
  | succ n ih =>
      have hplace : 4 * (n + 1) = 4 + 4 * n := by ring
      have hfirst : fd = [] ∨ 4 ≤ fd.length := by
        rcases hfd with ⟨k, hk⟩ | hle
        · rcases Nat.eq_zero_or_pos k with rfl | hpos
          · exact Or.inl (List.length_eq_zero_iff.mp hk)
          · exact Or.inr (by omega)
        · exact Or.inr (by omega)
      have hrest : 4 ∣ (fd.drop 4).length ∨ 4 * n ≤ (fd.drop 4).length := by
        rw [List.length_drop]
        omega
      rw [readWords, readWord_eq hfirst, ok_bind]
      dsimp only
      rw [ih hrest, List.drop_drop, ← hplace, List.range_succ_eq_map, List.map_cons, List.map_map]
      simp only [Function.comp_def, Nat.succ_eq_add_one, headerWord_succ]
      rfl

theorem readWords_error (hfd : ¬ (4 ∣ fd.length ∨ 4 * n ≤ fd.length)) :
    readWords n fd = .error .contract := by
  induction n generalizing fd with
  | zero => exact absurd (Or.inr (Nat.zero_le _)) hfd
  | succ n ih =>
      by_cases hlength : fd.length < 4
      · have hne : fd ≠ [] := by
          rintro rfl
          exact hfd (Or.inl (Nat.dvd_zero 4))
        rw [readWords, readWord_error hne hlength, error_bind]
      · have hrest : ¬ (4 ∣ (fd.drop 4).length ∨ 4 * n ≤ (fd.drop 4).length) := by
          rw [List.length_drop]
          omega
        rw [readWords, readWord_eq (Or.inr (by omega)), ok_bind]
        dsimp only
        rw [ih hrest, error_bind]

def header (fd : List UInt8) : Fbinfo where
  version := headerWord fd 0
  bpp := headerWord fd 1
  size := frameSize fd
  width := frameWidth fd
  height := frameHeight fd
  redOffset := headerWord fd 5
  redLength := headerWord fd 6
  blueOffset := headerWord fd 7
  blueLength := headerWord fd 8
  greenOffset := headerWord fd 9
  greenLength := headerWord fd 10
  alphaOffset := headerWord fd 11
  alphaLength := headerWord fd 12

theorem readFbinfo_eq (hfd : 4 ∣ fd.length ∨ 52 ≤ fd.length) :
    readFbinfo fd = .ok (header fd, fd.drop 52) := by
  rw [readFbinfo, readWords_eq hfd]
  rfl

/-! ### The pixels -/

theorem raw_eq (hfd : frameSize fd = 0 ∨ 52 < fd.length) :
    (readBytes (frameSize fd) (fd.drop 52)).1 = some (payload fd) := by
  rw [readBytes, payload]
  split_ifs with hzero hnil
  · rw [hzero, List.take_zero]
  · have hle := List.drop_eq_nil_iff.mp hnil
    omega
  · rfl

theorem raw_eof (hfd : ¬ (frameSize fd = 0 ∨ 52 < fd.length)) :
    (readBytes (frameSize fd) (fd.drop 52)).1 = none := by
  rw [not_or] at hfd
  rw [readBytes, if_neg hfd.1, if_pos (List.drop_eq_nil_iff.mpr (by omega))]

theorem draw_ok {w h : Nat} {raw : List UInt8} (hraw : 4 * w * h ≤ raw.length + 1) :
    ∃ view', draw w h raw view = .ok (.drawn w h (255 :: raw), view') :=
  ⟨_, congrArg (· >>= _) (if_pos hraw)⟩

theorem draw_error {w h : Nat} {raw : List UInt8} (hraw : ¬ 4 * w * h ≤ raw.length + 1) :
    draw w h raw view = .error .contract :=
  congrArg (· >>= _) (if_neg hraw)

theorem not_graceful_of_error {e : RacketError} (herror : fbCallback sha1 fd view = .error e) :
    ¬ Graceful sha1 fd view := by
  rintro ⟨outcome, view', hok, -⟩
  cases herror.symm.trans hok

theorem fbCallback_eq (hheader : 4 ∣ fd.length ∨ 52 ≤ fd.length)
    (hraw : frameSize fd = 0 ∨ 52 < fd.length) : fbCallback sha1 fd view =
      if 0 < frameWidth fd ∧ 0 < frameHeight fd then
        if frameSize fd = (payload fd).length then
          if view.fbhash ≠ .text (sha1 (payload fd)) then
            draw (frameWidth fd) (frameHeight fd) (payload fd)
              { view with fbhash := .text (sha1 (payload fd)) }
          else .ok (.same, view)
        else .ok (.dropped, view)
      else .ok (.dropped, view) := by
  rw [fbCallback, readFbinfo_eq hheader, ok_bind]
  dsimp only [header]
  rw [raw_eq hraw]
  refine if_congr Iff.rfl ?_ rfl
  rw [bytesLength, ok_bind]
  refine if_congr Iff.rfl ?_ rfl
  by_cases hchanged : view.fbhash = .text (sha1 (payload fd))
  · simp [contentChanged, doFbChecksumSha1, hchanged]
  · simp [contentChanged, doFbChecksumSha1, hchanged]

theorem fbCallback_eof (hheader : 4 ∣ fd.length ∨ 52 ≤ fd.length)
    (hraw : ¬ (frameSize fd = 0 ∨ 52 < fd.length)) :
    fbCallback sha1 fd view = .error .contract := by
  rw [fbCallback, readFbinfo_eq hheader, ok_bind]
  dsimp only [header]
  rw [raw_eof hraw]
  exact ite_self _

theorem graceful_of_ok {outcome : Outcome} {view' : View}
    (hok : fbCallback sha1 fd view = .ok (outcome, view'))
    (hkept : outcome = .same ∨ outcome = .dropped) (hview : view' = view) :
    Graceful sha1 fd view := by
  refine ⟨outcome, view', hok, ?_⟩
  rcases hkept with rfl | rfl <;> exact hview

/-- The callback draws a complete frame or leaves everything as it is exactly when the stream is cut
where it may be and a new frame has bytes for its pixels. -/
theorem graceful_iff (sha1 : List UInt8 → List Char) (fd : List UInt8) (view : View) :
    Graceful sha1 fd view ↔ WellCut sha1 fd view := by
  by_cases hheader : 4 ∣ fd.length ∨ 52 ≤ fd.length
  · by_cases hraw : frameSize fd = 0 ∨ 52 < fd.length
    · have hcallback := @fbCallback_eq sha1 fd view hheader hraw
      split_ifs at hcallback with hsides hsize hnew
      · by_cases hpixels : 4 * frameWidth fd * frameHeight fd ≤ (payload fd).length + 1
        · obtain ⟨view', hdraw⟩ := draw_ok hpixels
          exact iff_of_true
            ⟨_, view', hcallback.trans hdraw, rfl, rfl, rfl, hsize.symm, hpixels⟩
            ⟨hheader, hraw, fun _ _ _ _ => hsize ▸ hpixels⟩
        · refine iff_of_false (not_graceful_of_error (hcallback.trans (draw_error hpixels)))
            fun h => hpixels ?_
          rw [← hsize]
          exact h.2.2 hsides.1 hsides.2 hsize.symm hnew
      · exact iff_of_true (graceful_of_ok hcallback (Or.inl rfl) rfl)
          ⟨hheader, hraw, fun _ _ _ h => absurd h hnew⟩
      · exact iff_of_true (graceful_of_ok hcallback (Or.inr rfl) rfl)
          ⟨hheader, hraw, fun _ _ h => absurd h.symm hsize⟩
      · exact iff_of_true (graceful_of_ok hcallback (Or.inr rfl) rfl)
          ⟨hheader, hraw, fun hw hh => absurd ⟨hw, hh⟩ hsides⟩
    · exact iff_of_false (not_graceful_of_error (fbCallback_eof hheader hraw)) fun h => hraw h.2.1
  · refine iff_of_false (not_graceful_of_error (e := .contract) ?_) (fun h => hheader h.1)
    rw [fbCallback, readFbinfo, readWords_error hheader]
    rfl

def firstView : View := ⟨⟨1, 1, []⟩, .number 1024⟩

/-- A frame of two by two pixels with bytes for one of them. -/
def shortFrame : List UInt8 :=
  [1, 0, 0, 0, 32, 0, 0, 0, 4, 0, 0, 0, 2, 0, 0, 0, 2, 0, 0, 0] ++ List.replicate 32 0 ++
    [255, 0, 0, 255]

/-- The device may be unplugged after one byte, right after the header, or send a wrong size. -/
theorem shortFrame_contract :
    fbCallback (fun _ => []) [1] firstView = .error .contract ∧
    fbCallback (fun _ => []) (shortFrame.take 52) firstView = .error .contract ∧
    fbCallback (fun _ => []) shortFrame firstView = .error .contract ∧
    ¬ Graceful (fun _ => []) shortFrame firstView := by
  have herror : fbCallback (fun _ => []) shortFrame firstView = .error .contract := by decide
  exact ⟨by decide, by decide, herror, not_graceful_of_error herror⟩

end CodeSlices.SevenSquare
