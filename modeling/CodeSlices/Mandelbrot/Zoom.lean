import Mathlib.Data.List.Basic
import CodeSlices.Lib.Except
import CodeSlices.Lib.Transition
import CodeSlices.Mandelbrot.Render

/-!
# Zooming

The viewport and the iteration limit of a `mandelbrot%` of `lisp/mandelbrot/mandelbrot-class.rkt`,
and their transfer from one to another. The parts of a point are numbers of any kind, with the
operations of that kind; 0 is the exact one, by which alone a division raises.
-/

namespace CodeSlices.Mandelbrot

structure Point (K : Type) where
  real : K
  imag : K
  deriving DecidableEq

/-- What a `mandelbrot%` has for its viewport and its size. -/
structure Mb (K : Type) where
  q1 : Point K
  q2 : Point K
  maxIteration : ℤ
  width : Nat
  height : Nat
  zoomOutLevel : K
  zoomInLevel : K
  stdQ1 : Point K
  stdQ2 : Point K
  viewportChanged : Bool
  viewsizeChanged : Bool

def minimumIteration : ℤ := 50

def maximumIteration : ℤ := 1000

def stepIteration : ℤ := 80

def nextLimit (inward : Bool) (limit : ℤ) : ℤ :=
  if inward then
    if limit > minimumIteration then limit - stepIteration else limit
  else
    if limit < maximumIteration then limit + stepIteration else limit

variable {K : Type}

def Mb.setMaxIter (iter : ℤ) (mb : Mb K) : Mb K := { mb with maxIteration := iter }

def Mb.refresh (mb : Mb K) : Bool × Mb K :=
  if mb.viewportChanged || mb.viewsizeChanged then
    (true, { mb with viewportChanged := false, viewsizeChanged := false })
  else (false, mb)

def Mb.setViewsize (w h : Nat) (mb : Mb K) : Mb K :=
  if mb.width ≠ w ∨ mb.height ≠ h then
    { mb with width := w, height := h, viewsizeChanged := true }
  else mb

@[simp]
theorem Mb.refresh_maxIteration (mb : Mb K) : mb.refresh.2.maxIteration = mb.maxIteration := by
  rw [refresh]
  split_ifs <;> rfl

@[simp]
theorem Mb.setViewsize_maxIteration (w h : Nat) (mb : Mb K) :
    (mb.setViewsize w h).maxIteration = mb.maxIteration := by
  rw [setViewsize]
  split_ifs <;> rfl

/-! ### Several objects -/

inductive Action (K : Type)
  | zoom (k : Nat) (inward : Bool) (x y : K)
  | transfer (k target : Nat)
  | setStdViewport (k : Nat)
  | setViewsize (k w h : Nat)
  | refresh (k : Nat)

abbrev World (K : Type) := List (Mb K)

def call (k : Nat) (method : Mb K → Mb K) (world : World K) : Option (World K) :=
  world[k]?.map fun mb => world.set k (method mb)

theorem call_eq_some {world world' : World K} {k : Nat} {method : Mb K → Mb K}
    (hcall : call k method world = some world') :
    ∃ mb, world[k]? = some mb ∧ world' = world.set k (method mb) := by
  obtain ⟨mb, hmb, hset⟩ := Option.map_eq_some_iff.mp hcall
  exact ⟨mb, hmb, hset.symm⟩

/-- New objects, with any viewport and size. -/
def Created (world : World K) : Prop := ∀ mb ∈ world, mb.maxIteration = 50

def WithinLimits (world : World K) : Prop :=
  ∀ mb ∈ world, minimumIteration ≤ mb.maxIteration ∧ mb.maxIteration ≤ maximumIteration

/-- As many steps above the least limit as a run can climb. -/
def Stepped (world : World K) : Prop :=
  ∀ mb ∈ world, ∃ n : Nat, n ≤ 12 ∧ mb.maxIteration = minimumIteration + n * stepIteration

theorem Created.stepped {world : World K} (hcreated : Created world) : Stepped world :=
  fun mb hmb => ⟨0, by decide, hcreated mb hmb⟩

theorem nextLimit_stepped (inward : Bool) {n : Nat} (hn : n ≤ 12) :
    ∃ m : Nat, m ≤ 12 ∧
      nextLimit inward (minimumIteration + n * stepIteration) =
        minimumIteration + m * stepIteration := by
  cases inward with
  | true =>
      rw [nextLimit, if_pos rfl]
      split_ifs with hmin
      · refine ⟨n - 1, by omega, ?_⟩
        simp only [minimumIteration, stepIteration] at hmin ⊢
        omega
      · exact ⟨n, hn, rfl⟩
  | false =>
      rw [nextLimit, if_neg Bool.false_ne_true]
      split_ifs with hmax
      · simp only [minimumIteration, stepIteration, maximumIteration] at hmax
        refine ⟨n + 1, by omega, ?_⟩
        simp only [minimumIteration, stepIteration]
        omega
      · exact ⟨n, hn, rfl⟩

theorem nextLimit_out_le_iff {limit : ℤ} (hlimit : limit ≤ maximumIteration) :
    nextLimit false limit ≤ maximumIteration ↔
      limit + stepIteration ≤ maximumIteration ∨ maximumIteration ≤ limit := by
  rw [nextLimit, if_neg Bool.false_ne_true]
  split_ifs with hmax
  · exact (or_iff_left (not_le_of_gt hmax)).symm
  · exact iff_of_true hlimit (Or.inr (not_lt.mp hmax))

theorem nextLimit_in_le (limit : ℤ) : nextLimit true limit ≤ limit := by
  rw [nextLimit, if_pos rfl]
  split_ifs
  · exact sub_le_self limit (by decide)
  · exact le_rfl

theorem forall_mem_set_iff {world : World K} {k : Nat} {mb new : Mb K} {P : Mb K → Prop}
    (hall : ∀ mb ∈ world, P mb) (hmb : world[k]? = some mb) :
    (∀ mb ∈ world.set k new, P mb) ↔ P new := by
  constructor
  · intro hset
    obtain ⟨hk, -⟩ := List.getElem?_eq_some_iff.mp hmb
    exact hset new (List.mem_set hk new)
  · intro hnew other hother
    rcases List.mem_or_eq_of_mem_set hother with hold | rfl
    · exact hall other hold
    · exact hnew

variable [DecidableEq K]

def Mb.setViewport (q1 q2 : Point K) (mb : Mb K) : Mb K :=
  if mb.q1 ≠ q1 ∨ mb.q2 ≠ q2 then { mb with q1 := q1, q2 := q2, viewportChanged := true } else mb

def Mb.setStdViewport (mb : Mb K) : Mb K := mb.setViewport mb.stdQ1 mb.stdQ2

@[simp]
theorem Mb.setViewport_maxIteration (q1 q2 : Point K) (mb : Mb K) :
    (mb.setViewport q1 q2).maxIteration = mb.maxIteration := by
  rw [setViewport]
  split_ifs <;> rfl

variable [Mul K] [Div K] [Zero K]

def Mb.scaled (inward : Bool) (diff : Point K) (mb : Mb K) : Except Fault (Point K) :=
  if inward then .ok ⟨diff.real * mb.zoomInLevel, diff.imag * mb.zoomInLevel⟩
  else if mb.zoomOutLevel = 0 then .error .contract
  else .ok ⟨diff.real / mb.zoomOutLevel, diff.imag / mb.zoomOutLevel⟩

theorem Mb.scaled_ok {mb : Mb K} {inward : Bool} (hlevel : ¬ (inward = false ∧ mb.zoomOutLevel = 0))
    (diff : Point K) : ∃ diff', mb.scaled inward diff = .ok diff' := by
  cases inward with
  | true => exact ⟨_, rfl⟩
  | false =>
      rw [scaled, if_neg Bool.false_ne_true, if_neg fun h => hlevel ⟨rfl, h⟩]
      exact ⟨_, rfl⟩

variable [Add K] [Sub K] [IntCast K]

instance : Add (Point K) := ⟨fun p q => ⟨p.real + q.real, p.imag + q.imag⟩⟩

instance : Sub (Point K) := ⟨fun p q => ⟨p.real - q.real, p.imag - q.imag⟩⟩

/-- `(/ x (sub1 side))` -/
def relative (x : K) (side : Nat) : Except Fault K :=
  if side = 1 then .error .contract else .ok (x / (((side : ℤ) - 1 : ℤ) : K))

def Mb.zoom (inward : Bool) (x y : K) (mb : Mb K) : Except Fault (Mb K) := do
  let diff := mb.q1 - mb.q2
  let xRatio ← relative x mb.width
  let yRatio ← relative y mb.height
  let p := mb.q1 - ⟨diff.real * xRatio, diff.imag * yRatio⟩
  let diff ← mb.scaled inward diff
  let mb := mb.setViewport (p + diff) (p - diff)
  .ok { mb with maxIteration := nextLimit inward mb.maxIteration }

/-- A zoom raises: the size has a side of one pixel, or the level that it divides by is 0. -/
def Mb.Raises (mb : Mb K) (inward : Bool) : Prop :=
  mb.width = 1 ∨ mb.height = 1 ∨ inward = false ∧ mb.zoomOutLevel = 0

instance (mb : Mb K) (inward : Bool) : Decidable (mb.Raises inward) :=
  inferInstanceAs (Decidable (_ ∨ _ ∨ _))

/-- A call that raises leaves the object as it was. -/
def Mb.zoomed (inward : Bool) (x y : K) (mb : Mb K) : Mb K :=
  match mb.zoom inward x y with
  | .ok mb => mb
  | .error _ => mb

theorem Mb.zoom_error {mb : Mb K} {inward : Bool} (x y : K) (hraises : mb.Raises inward) :
    mb.zoom inward x y = .error .contract := by
  by_cases hwidth : mb.width = 1
  · rw [zoom, relative, if_pos hwidth, error_bind]
  by_cases hheight : mb.height = 1
  · rw [zoom, relative, if_neg hwidth, ok_bind, relative, if_pos hheight, error_bind]
  obtain ⟨rfl, hlevel⟩ := (hraises.resolve_left hwidth).resolve_left hheight
  rw [zoom, relative, if_neg hwidth, ok_bind, relative, if_neg hheight, ok_bind, scaled,
    if_neg Bool.false_ne_true, if_pos hlevel, error_bind]

theorem Mb.zoom_ok {mb : Mb K} {inward : Bool} (x y : K) (hraises : ¬ mb.Raises inward) :
    ∃ new, mb.zoom inward x y = .ok new ∧
      new.maxIteration = nextLimit inward mb.maxIteration := by
  obtain ⟨hwidth, hheight, hlevel⟩ := by
    simpa only [Raises, not_or] using hraises
  rw [zoom, relative, if_neg hwidth, ok_bind, relative, if_neg hheight, ok_bind]
  obtain ⟨diff, hdiff⟩ := scaled_ok hlevel (mb.q1 - mb.q2)
  rw [hdiff, ok_bind]
  exact ⟨_, rfl, congrArg (nextLimit inward) (setViewport_maxIteration _ _ mb)⟩

theorem Mb.zoomed_maxIteration (mb : Mb K) (inward : Bool) (x y : K) :
    (mb.zoomed inward x y).maxIteration =
      if mb.Raises inward then mb.maxIteration else nextLimit inward mb.maxIteration := by
  split_ifs with hraises
  · rw [zoomed, zoom_error x y hraises]
  · obtain ⟨new, hzoom, hlimit⟩ := zoom_ok x y hraises
    rw [zoomed, hzoom, hlimit]

/-- `transfer-viewport-to-target` -/
def transferViewportToTarget (mb target : Mb K) : Mb K :=
  (target.setViewport mb.q1 mb.q2).setMaxIter mb.maxIteration

def act (world : World K) : Action K → Option (World K)
  | .zoom k inward x y => call k (fun mb => mb.zoomed inward x y) world
  | .transfer k target => world[k]?.bind fun mb => call target (transferViewportToTarget mb) world
  | .setStdViewport k => call k Mb.setStdViewport world
  | .setViewsize k w h => call k (Mb.setViewsize w h) world
  | .refresh k => call k (fun mb => mb.refresh.2) world

/-- A zoom out that does not raise finds room for a whole step, or none at all. -/
def HasRoom (world : World K) : Action K → Prop
  | .zoom k false _ _ => ∀ mb ∈ world[k]?, ¬ mb.Raises false →
      mb.maxIteration + stepIteration ≤ maximumIteration ∨ maximumIteration ≤ mb.maxIteration
  | _ => True

instance (world : World K) : (a : Action K) → Decidable (HasRoom world a)
  | .zoom k false _ _ => inferInstanceAs (Decidable (∀ mb ∈ world[k]?, _ → _ ∨ _))
  | .zoom _ true _ _ | .transfer _ _ | .setStdViewport _ | .setViewsize _ _ _ | .refresh _ =>
      isTrue trivial

variable {world world' : World K} {a : Action K} {mb new : Mb K} {k : Nat}

/-- What an action can do to the limits: one object takes a step of its own, or the limit of some
object. -/
theorem act_cases (hact : act world a = some world') :
    ∃ k mb new, world[k]? = some mb ∧ world' = world.set k new ∧
      ((∃ inward x y, a = .zoom k inward x y ∧ ¬ mb.Raises inward ∧
          new.maxIteration = nextLimit inward mb.maxIteration) ∨
        HasRoom world a ∧ ∃ other ∈ world, new.maxIteration = other.maxIteration) := by
  cases a with
  | zoom k inward x y =>
      obtain ⟨mb, hmb, rfl⟩ := call_eq_some hact
      have hlimit := mb.zoomed_maxIteration inward x y
      refine ⟨k, mb, _, hmb, rfl, ?_⟩
      by_cases hraises : mb.Raises inward
      · rw [if_pos hraises] at hlimit
        refine Or.inr ⟨?_, mb, List.mem_of_getElem? hmb, hlimit⟩
        cases inward with
        | true => trivial
        | false =>
            intro other hother hnot
            obtain rfl := Option.some.inj (hmb.symm.trans hother)
            exact absurd hraises hnot
      · rw [if_neg hraises] at hlimit
        exact Or.inl ⟨inward, x, y, rfl, hraises, hlimit⟩
  | transfer k target =>
      obtain ⟨source, hsource, hcall⟩ := Option.bind_eq_some_iff.mp hact
      obtain ⟨mb, hmb, rfl⟩ := call_eq_some hcall
      exact ⟨target, mb, _, hmb, rfl, Or.inr ⟨trivial, source, List.mem_of_getElem? hsource, rfl⟩⟩
  | setStdViewport k =>
      obtain ⟨mb, hmb, rfl⟩ := call_eq_some hact
      exact ⟨k, mb, _, hmb, rfl, Or.inr ⟨trivial, mb, List.mem_of_getElem? hmb,
        mb.setViewport_maxIteration _ _⟩⟩
  | setViewsize k w h =>
      obtain ⟨mb, hmb, rfl⟩ := call_eq_some hact
      exact ⟨k, mb, _, hmb, rfl, Or.inr ⟨trivial, mb, List.mem_of_getElem? hmb,
        mb.setViewsize_maxIteration w h⟩⟩
  | refresh k =>
      obtain ⟨mb, hmb, rfl⟩ := call_eq_some hact
      exact ⟨k, mb, _, hmb, rfl, Or.inr ⟨trivial, mb, List.mem_of_getElem? hmb,
        mb.refresh_maxIteration⟩⟩

theorem Stepped.step (hsteps : Stepped world) (hact : act world a = some world') :
    Stepped world' := by
  obtain ⟨k, mb, new, hmb, rfl, hnew⟩ := act_cases hact
  refine (forall_mem_set_iff hsteps hmb).mpr ?_
  rcases hnew with ⟨inward, x, y, -, -, hlimit⟩ | ⟨-, other, hother, hlimit⟩
  · obtain ⟨n, hn, hsteps⟩ := hsteps mb (List.mem_of_getElem? hmb)
    rw [hlimit, hsteps]
    exact nextLimit_stepped inward hn
  · rw [hlimit]
    exact hsteps other hother

/-- In every run the limits stay between the least one and ten above the greatest. -/
theorem stepped_of_exec {es : List (Action K)} (hcreated : Created world)
    (hrun : Transition.exec act world es = some world') : Stepped world' :=
  Transition.exec_invariant (fun _ _ _ => Stepped.step)
    hcreated.stepped hrun

/-- Out of the limits there is one way: a step up without room for it. -/
theorem Stepped.withinLimits_act_iff (hsteps : Stepped world) (hwithin : WithinLimits world)
    (hact : act world a = some world') :
    WithinLimits world' ↔ HasRoom world a := by
  have hleast : ∀ mb ∈ world', minimumIteration ≤ mb.maxIteration := fun mb hmem => by
    obtain ⟨n, -, hn⟩ := hsteps.step hact mb hmem
    rw [hn]
    exact le_add_of_nonneg_right (mul_nonneg (Int.natCast_nonneg n) (by decide))
  obtain ⟨k, mb, new, hmb, rfl, hnew⟩ := act_cases hact
  have hgreatest : WithinLimits (world.set k new) ↔ new.maxIteration ≤ maximumIteration := by
    rw [WithinLimits, forall_mem_set_iff hwithin hmb]
    exact and_iff_right ((forall_mem_set_iff (fun mb h => (hwithin mb h).1) hmb).mp hleast)
  rw [hgreatest]
  obtain ⟨-, hmax⟩ := hwithin mb (List.mem_of_getElem? hmb)
  rcases hnew with ⟨inward, x, y, rfl, hraises, hlimit⟩ | ⟨hroom, other, hother, hlimit⟩
  · rw [hlimit]
    cases inward with
    | true => exact iff_of_true (le_trans (nextLimit_in_le mb.maxIteration) hmax) trivial
    | false =>
        rw [nextLimit_out_le_iff hmax, HasRoom]
        refine ⟨fun hroom other hother _ => ?_, fun hroom => hroom mb hmb hraises⟩
        obtain rfl := Option.some.inj (hmb.symm.trans hother)
        exact hroom
  · rw [hlimit]
    exact iff_of_true (hwithin other hother).2 hroom

/-- From new objects on, every limit stays in its bounds exactly as long as no object whose limit is
below the greatest one, but nearer to it than a step, is zoomed out. -/
theorem throughout_withinLimits_iff (world : World K) (es : List (Action K))
    (hcreated : Created world) :
    Transition.Throughout act WithinLimits world es ↔ Transition.Guarded act HasRoom world es := by
  have hwithin : WithinLimits world := fun mb hmb => by
    rw [hcreated mb hmb]
    decide
  refine Transition.throughout_iff_guarded (I := Stepped) (fun _ _ _ => Stepped.step)
    (fun _ _ _ => Stepped.withinLimits_act_iff) ?_ es hcreated.stepped hwithin
  intro world a hact
  cases a with
  | zoom k inward x y =>
      have hnone : world[k]? = none := Option.map_eq_none_iff.mp hact
      cases inward with
      | true => trivial
      | false => exact fun mb hmb => nomatch hnone.symm.trans (Option.mem_def.mp hmb)
  | _ => trivial

/-- An object with the default viewport and size, in exact numbers. -/
def standard : Mb ℚ where
  q1 := ⟨-9 / 4, 3 / 2⟩
  q2 := ⟨1, -3 / 2⟩
  maxIteration := 50
  width := 326
  height := 300
  zoomOutLevel := 8
  zoomInLevel := 2
  stdQ1 := ⟨-9 / 4, 3 / 2⟩
  stdQ2 := ⟨1, -3 / 2⟩
  viewportChanged := true
  viewsizeChanged := false

/-- Twice out and once in, and what comes of it shown in another object. -/
theorem standard_withinLimits : Transition.Throughout act WithinLimits [standard, standard]
    [.zoom 0 false 20 30, .zoom 0 false 1 1, .zoom 0 true 7 8, .transfer 0 1] := by
  have hcreated : Created [standard, standard] := fun mb hmb => by
    rcases List.mem_pair.mp hmb with rfl | rfl <;> rfl
  exact (throughout_withinLimits_iff _ _ hcreated).mpr (by decide +kernel)

/-- With twelve zooms out the limit is 1010. -/
theorem standard_zoomedOut :
    (Transition.exec act [standard] (List.replicate 12 (.zoom 0 false 163 150))).map
      (fun world => world.map Mb.maxIteration) = some [1010] ∧
    ¬ Transition.Throughout act WithinLimits [standard]
      (List.replicate 12 (.zoom 0 false 163 150)) := by
  have hlimit : (Transition.exec act [standard]
      (List.replicate 12 (.zoom 0 false 163 150))).map
        (fun world => world.map Mb.maxIteration) = some [1010] := by
    decide +kernel
  refine ⟨hlimit, fun hwithin => ?_⟩
  obtain ⟨world, hrun, hworld⟩ := Option.map_eq_some_iff.mp hlimit
  obtain ⟨mb, rfl, hmb⟩ := List.map_eq_singleton_iff.mp hworld
  obtain ⟨-, hmax⟩ := hwithin.last hrun mb List.mem_cons_self
  rw [hmb] at hmax
  exact absurd hmax (by decide)

end CodeSlices.Mandelbrot
