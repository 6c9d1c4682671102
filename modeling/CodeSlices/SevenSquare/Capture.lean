import Mathlib.Data.List.Basic
import Mathlib.Logic.Function.Basic
import CodeSlices.Lib.Transition

/-!
# The timer and the waiting threads

`fb-capture`, `start-wait-thread` and `on-close` of `lisp/seven-square.rkt`. The callbacks run one
after another in the thread of the window, and the threads that wait for a device run between any
two operations of these. Whether a query succeeds, raises or never returns is left open.
-/

namespace CodeSlices.SevenSquare

/-- Where a thread of `start-wait-thread` stands: in `wait-for-device`, before
`(set! wait-thread-id #f)` or before the start of the timer. -/
inductive Pc
  | unborn
  | waiting
  | clearing
  | starting
  | ended
  | raised
  | killed
  deriving DecidableEq

/-- The next operation of the thread of the window. -/
inductive MainPc
  | idle
  | capturing
  | testing
  | stopping
  | creating
  | setting (t : Nat)
  | closing
  | killing
  | closeStopping
  deriving DecidableEq

structure Capture where
  timer : Bool
  waitThreadId : Option Nat
  pc : Nat → Pc
  created : Nat
  main : MainPc
  closed : Bool

/-- The first device is there, and the window is shown. -/
def started : Capture where
  timer := true
  waitThreadId := none
  pc := fun _ => .unborn
  created := 0
  main := .idle
  closed := false

inductive Event
  | fire
  | served (connected : Bool)
  | raise
  | close
  | main
  | found (t : Nat)
  | failed (t : Nat)
  | run (t : Nat)
  deriving DecidableEq

def Pc.Live : Pc → Prop
  | .waiting => True
  | .clearing => True
  | .starting => True
  | _ => False

instance : (pc : Pc) → Decidable pc.Live
  | .waiting | .clearing | .starting => isTrue trivial
  | .unborn | .ended | .raised | .killed => isFalse id

/-- `(kill-thread t)`, which leaves a thread that is dead as it is. -/
def killThread (t : Nat) (s : Capture) : Capture :=
  { s with pc := if (s.pc t).Live then Function.update s.pc t .killed else s.pc }

def mainStep (s : Capture) : Option Capture :=
  match s.main with
  | .idle => none
  | .capturing => none
  | .testing => some { s with main := if s.waitThreadId.isSome then .idle else .stopping }
  | .stopping => some { s with timer := false, main := .creating }
  | .creating =>
      some { s with
        pc := Function.update s.pc s.created .waiting
        created := s.created + 1
        main := .setting s.created }
  | .setting t => some { s with waitThreadId := some t, main := .idle }
  | .closing => some { s with main := if s.waitThreadId.isSome then .killing else .closeStopping }
  | .killing =>
      match s.waitThreadId with
      | some t => some { killThread t s with main := .closeStopping }
      | none => some { s with main := .idle } -- `kill-thread` raises, and the window stays.
  | .closeStopping => some { s with timer := false, main := .idle, closed := true }

def step (s : Capture) : Event → Option Capture
  | .fire => if s.main = .idle ∧ s.timer = true then some { s with main := .capturing } else none
  | .served connected =>
      if s.main = .capturing then some { s with main := if connected then .idle else .testing }
      else none
  | .raise => -- The timer expires again only after `fb-capture` has returned.
      if s.main = .capturing then some { s with timer := false, main := .idle } else none
  | .close =>
      if s.main = .idle ∧ s.closed = false then some { s with main := .closing } else none
  | .main => mainStep s
  | .found t =>
      if s.pc t = .waiting then some { s with pc := Function.update s.pc t .clearing } else none
  | .failed t =>
      if s.pc t = .waiting then some { s with pc := Function.update s.pc t .raised } else none
  | .run t =>
      match s.pc t with
      | .clearing =>
          some { s with waitThreadId := none, pc := Function.update s.pc t .starting }
      | .starting => some { s with timer := true, pc := Function.update s.pc t .ended }
      | _ => none

/-- What a step can do, with its guards. -/
inductive Move (s : Capture) : Event → Capture → Prop
  | fire (hmain : s.main = .idle) (htimer : s.timer = true) :
      Move s .fire { s with main := .capturing }
  | served (connected : Bool) (hmain : s.main = .capturing) :
      Move s (.served connected) { s with main := if connected then .idle else .testing }
  | raise (hmain : s.main = .capturing) : Move s .raise { s with timer := false, main := .idle }
  | close (hmain : s.main = .idle) (hclosed : s.closed = false) :
      Move s .close { s with main := .closing }
  | test (hmain : s.main = .testing) :
      Move s .main { s with main := if s.waitThreadId.isSome then .idle else .stopping }
  | stop (hmain : s.main = .stopping) : Move s .main { s with timer := false, main := .creating }
  | create (hmain : s.main = .creating) :
      Move s .main { s with
        pc := Function.update s.pc s.created .waiting
        created := s.created + 1
        main := .setting s.created }
  | set (t : Nat) (hmain : s.main = .setting t) :
      Move s .main { s with waitThreadId := some t, main := .idle }
  | closeTest (hmain : s.main = .closing) :
      Move s .main { s with main := if s.waitThreadId.isSome then .killing else .closeStopping }
  | kill (t : Nat) (hmain : s.main = .killing) (hwait : s.waitThreadId = some t) :
      Move s .main { killThread t s with main := .closeStopping }
  | killRaises (hmain : s.main = .killing) (hwait : s.waitThreadId = none) :
      Move s .main { s with main := .idle }
  | closeStop (hmain : s.main = .closeStopping) :
      Move s .main { s with timer := false, main := .idle, closed := true }
  | found (t : Nat) (hpc : s.pc t = .waiting) :
      Move s (.found t) { s with pc := Function.update s.pc t .clearing }
  | failed (t : Nat) (hpc : s.pc t = .waiting) :
      Move s (.failed t) { s with pc := Function.update s.pc t .raised }
  | clear (t : Nat) (hpc : s.pc t = .clearing) :
      Move s (.run t) { s with waitThreadId := none, pc := Function.update s.pc t .starting }
  | start (t : Nat) (hpc : s.pc t = .starting) :
      Move s (.run t) { s with timer := true, pc := Function.update s.pc t .ended }

variable {s s' : Capture} {e : Event}

theorem move_of_main (hstep : mainStep s = some s') : Move s .main s' := by
  unfold mainStep at hstep
  cases hmain : s.main with
  | idle | capturing => rw [hmain] at hstep; cases hstep
  | testing => rw [hmain] at hstep; exact Option.some.inj hstep ▸ .test hmain
  | stopping => rw [hmain] at hstep; exact Option.some.inj hstep ▸ .stop hmain
  | creating => rw [hmain] at hstep; exact Option.some.inj hstep ▸ .create hmain
  | setting t => rw [hmain] at hstep; exact Option.some.inj hstep ▸ .set t hmain
  | closing => rw [hmain] at hstep; exact Option.some.inj hstep ▸ .closeTest hmain
  | killing =>
      rw [hmain] at hstep
      cases hwait : s.waitThreadId with
      | none =>
          have hmove := Move.killRaises hmain hwait
          rw [hwait] at hstep hmove
          exact Option.some.inj hstep ▸ hmove
      | some t => rw [hwait] at hstep; exact Option.some.inj hstep ▸ .kill t hmain hwait
  | closeStopping => rw [hmain] at hstep; exact Option.some.inj hstep ▸ .closeStop hmain

theorem move_of_step (hstep : step s e = some s') : Move s e s' := by
  cases e with
  | fire =>
      obtain ⟨⟨hmain, htimer⟩, ⟨⟩⟩ := Option.ite_none_right_eq_some.mp hstep
      exact .fire hmain htimer
  | served connected =>
      obtain ⟨hmain, ⟨⟩⟩ := Option.ite_none_right_eq_some.mp hstep
      exact .served connected hmain
  | raise =>
      obtain ⟨hmain, ⟨⟩⟩ := Option.ite_none_right_eq_some.mp hstep
      exact .raise hmain
  | close =>
      obtain ⟨⟨hmain, hclosed⟩, ⟨⟩⟩ := Option.ite_none_right_eq_some.mp hstep
      exact .close hmain hclosed
  | main => exact move_of_main hstep
  | found t =>
      obtain ⟨hpc, ⟨⟩⟩ := Option.ite_none_right_eq_some.mp hstep
      exact .found t hpc
  | failed t =>
      obtain ⟨hpc, ⟨⟩⟩ := Option.ite_none_right_eq_some.mp hstep
      exact .failed t hpc
  | run t =>
      rw [step] at hstep
      cases hpc : s.pc t with
      | clearing => rw [hpc] at hstep; exact Option.some.inj hstep ▸ .clear t hpc
      | starting => rw [hpc] at hstep; exact Option.some.inj hstep ▸ .start t hpc
      | unborn | waiting | ended | raised | killed => rw [hpc] at hstep; cases hstep

def MainPc.Asking : MainPc → Prop
  | .capturing => True
  | .testing => True
  | .stopping => True
  | _ => False

/-- What is true at any time: one thread at most is on its way, the last one, and only while the
timer is stopped. -/
structure Waits (s : Capture) : Prop where
  last : ∀ t, (s.pc t).Live → t + 1 = s.created
  unborn : ∀ t, s.created ≤ t → s.pc t = .unborn
  live : ∀ t, (s.pc t).Live → s.timer = false
  asking : s.main.Asking → s.timer = true
  creating : s.main = .creating → s.timer = false ∧ ∀ t, ¬ (s.pc t).Live

theorem waits_started : Waits started :=
  ⟨fun _ => False.elim, fun _ _ => rfl, fun _ => False.elim, False.elim, nofun⟩

theorem live_update_self {pc : Nat → Pc} {t : Nat} {new : Pc} :
    (Function.update pc t new t).Live ↔ new.Live := by
  rw [Function.update_self]

/-- A live thread that moves on leaves no more live threads than there were. -/
theorem live_of_update {t u : Nat} {new : Pc} (hlive : (s.pc t).Live)
    (hnew : (Function.update s.pc t new u).Live) : (s.pc u).Live := by
  rcases eq_or_ne u t with rfl | hne
  · exact hlive
  · rwa [Function.update_of_ne hne] at hnew

theorem Waits.unborn_update (hs : Waits s) {t : Nat} {new : Pc} (hlive : (s.pc t).Live) (u : Nat)
    (hu : s.created ≤ u) : Function.update s.pc t new u = .unborn := by
  have hlast := hs.last t hlive
  rw [Function.update_of_ne (by omega)]
  exact hs.unborn u hu

/-- Another statement of the thread of the window, with the threads and the timer as they are. -/
theorem Waits.advance (hs : Waits s) (wait : Option Nat) {main : MainPc}
    (hasking : main.Asking → s.timer = true) (hcreating : main ≠ .creating) :
    Waits { s with waitThreadId := wait, main := main } :=
  ⟨hs.last, hs.unborn, hs.live, hasking, fun h => absurd h hcreating⟩

/-- Another statement of a thread that is not done yet, or is done in vain. -/
theorem Waits.move (hs : Waits s) (wait : Option Nat) {t : Nat} (new : Pc)
    (hlive : (s.pc t).Live) :
    Waits { s with waitThreadId := wait, pc := Function.update s.pc t new } := by
  have hfewer : ∀ u, (Function.update s.pc t new u).Live → (s.pc u).Live :=
    fun u => live_of_update hlive
  refine ⟨fun u hu => hs.last u (hfewer u hu), fun u hu => hs.unborn_update hlive u hu,
    fun u hu => hs.live u (hfewer u hu), hs.asking, fun hmain => ?_⟩
  exact absurd hlive ((hs.creating hmain).2 t)

theorem Waits.killThread (hs : Waits s) (t : Nat) : Waits (killThread t s) := by
  by_cases hlive : (s.pc t).Live
  · rw [SevenSquare.killThread, if_pos hlive]
    exact hs.move s.waitThreadId .killed hlive
  · rw [SevenSquare.killThread, if_neg hlive]
    exact hs

theorem Waits.not_live_of_timer (hs : Waits s) (htimer : s.timer = true) (t : Nat) :
    ¬ (s.pc t).Live := by
  intro hlive
  exact Bool.false_ne_true ((hs.live t hlive).symm.trans htimer)

theorem Waits.step (hs : Waits s) (hstep : step s e = some s') : Waits s' := by
  cases move_of_step hstep with
  | fire hmain htimer => exact hs.advance _ (fun _ => htimer) nofun
  | served connected hmain =>
      refine hs.advance _ (fun _ => hs.asking (hmain ▸ trivial)) ?_
      cases connected <;> exact nofun
  | raise hmain => exact ⟨hs.last, hs.unborn, fun _ _ => rfl, False.elim, nofun⟩
  | close hmain hclosed => exact hs.advance _ False.elim nofun
  | test hmain =>
      refine hs.advance _ (fun _ => hs.asking (hmain ▸ trivial)) ?_
      cases s.waitThreadId <;> exact nofun
  | stop hmain =>
      have hnone := hs.not_live_of_timer (hs.asking (hmain ▸ trivial))
      exact ⟨hs.last, hs.unborn, fun _ _ => rfl, False.elim, fun _ => ⟨rfl, hnone⟩⟩
  | create hmain =>
      obtain ⟨htimer, hnone⟩ := hs.creating hmain
      refine ⟨fun t hlive => ?_, fun t ht => ?_, fun _ _ => htimer, False.elim, nofun⟩
      · rcases eq_or_ne t s.created with rfl | hne
        · rfl
        · have hpc := Function.update_of_ne hne .waiting s.pc
          exact absurd (hpc ▸ hlive : (s.pc t).Live) (hnone t)
      · have hne : t ≠ s.created := by
          rintro rfl
          exact absurd ht (Nat.not_succ_le_self _)
        exact (Function.update_of_ne hne _ _).trans (hs.unborn t (Nat.le_of_succ_le ht))
  | set t hmain => exact hs.advance _ False.elim nofun
  | closeTest hmain =>
      refine hs.advance _ ?_ ?_
      · cases s.waitThreadId <;> exact False.elim
      · cases s.waitThreadId <;> exact nofun
  | kill t hmain hwait => exact (hs.killThread t).advance _ False.elim nofun
  | killRaises hmain hwait => exact hs.advance _ False.elim nofun
  | closeStop hmain => exact ⟨hs.last, hs.unborn, fun _ _ => rfl, False.elim, nofun⟩
  | found t hpc => exact hs.move _ _ (hpc ▸ trivial)
  | failed t hpc => exact hs.move _ _ (hpc ▸ trivial)
  | clear t hpc => exact hs.move _ _ (hpc ▸ trivial)
  | start t hpc =>
      have hlive : (s.pc t).Live := hpc ▸ trivial
      have hlast := hs.last t hlive
      have hnone : ∀ u, ¬ (Function.update s.pc t .ended u).Live := fun u hu => by
        have hlast' := hs.last u (live_of_update hlive hu)
        obtain rfl : u = t := by omega
        exact live_update_self.mp hu
      exact ⟨fun u hu => absurd hu (hnone u), fun u hu => hs.unborn_update hlive u hu,
        fun u hu => absurd hu (hnone u), fun _ => rfl,
        fun hmain => absurd hlive ((hs.creating hmain).2 t)⟩

theorem killThread_pc (t : Nat) (s : Capture) (u : Nat) :
    u ≠ t ∧ (killThread t s).pc u = s.pc u ∨ ¬ ((killThread t s).pc u).Live := by
  have hpc : (killThread t s).pc =
      if (s.pc t).Live then Function.update s.pc t .killed else s.pc := rfl
  rw [hpc]
  rcases eq_or_ne u t with rfl | hne
  · refine Or.inr ?_
    split_ifs with hlive
    · rw [Function.update_self]
      exact id
    · exact hlive
  · refine Or.inl ⟨hne, ?_⟩
    split_ifs
    · exact Function.update_of_ne hne _ _
    · rfl

/-- Something is left that asks for a frame or can start the timer. -/
def Alive (s : Capture) : Prop := s.timer = true ∨ s.main = .creating ∨ ∃ t, (s.pc t).Live

/-- The window is there, and `on-close` is not under way. -/
def Open (s : Capture) : Prop :=
  s.closed = false ∧ s.main ≠ .closing ∧ s.main ≠ .killing ∧ s.main ≠ .closeStopping

/-- `on-close` has killed no thread and stopped no timer yet. -/
def Untouched (s : Capture) : Prop := s.closed = false ∧ s.main ≠ .closeStopping

/-- An exception ends `fb-capture` or a wait. -/
def Event.Fails : Event → Prop
  | .raise => True
  | .failed _ => True
  | _ => False

theorem Open.untouched (hopen : Open s) : Untouched s := ⟨hopen.1, hopen.2.2.2⟩

theorem Untouched.of_step (hopen : Untouched s') (hstep : step s e = some s') : Untouched s := by
  cases move_of_step hstep with
  | closeStop hmain => exact absurd hopen.1.symm Bool.false_ne_true
  | kill t hmain hwait => exact absurd rfl hopen.2
  | fire hmain | served _ hmain | raise hmain | close hmain | test hmain | stop hmain
  | create hmain | set _ hmain | closeTest hmain | killRaises hmain =>
      exact ⟨hopen.1, hmain ▸ nofun⟩
  | found t hpc | failed t hpc | clear t hpc | start t hpc => exact hopen

/-- The thread of the window goes on, and does not come from or to the creation of a thread. -/
theorem alive_advance (wait : Option Nat) {main : MainPc} (hold : s.main ≠ .creating)
    (hnew : main ≠ .creating) :
    Alive { s with waitThreadId := wait, main := main } ↔ Alive s :=
  or_congr_right (or_congr_left (iff_of_false hnew hold))

/-- A thread goes on, and is live still or has started the timer. -/
theorem alive_move (wait : Option Nat) {timer : Bool} {t : Nat} {new : Pc}
    (hlive : (s.pc t).Live) (hnew : new.Live ∨ timer = true) :
    Alive { s with timer := timer, waitThreadId := wait, pc := Function.update s.pc t new } ↔
      Alive s := by
  refine iff_of_true ?_ (Or.inr (Or.inr ⟨t, hlive⟩))
  rcases hnew with hnew | htimer
  · exact Or.inr (Or.inr ⟨t, live_update_self.mpr hnew⟩)
  · exact Or.inl htimer

/-- The only live thread is gone. -/
theorem Waits.not_alive_update (hs : Waits s) {t : Nat} {new : Pc} (hlive : (s.pc t).Live)
    (hnew : ¬ new.Live) : ¬ Alive { s with pc := Function.update s.pc t new } := by
  rintro (htimer | hmain | ⟨u, hu⟩)
  · exact hs.not_live_of_timer htimer t hlive
  · exact (hs.creating hmain).2 t hlive
  · have hlast := hs.last t hlive
    have hlast' := hs.last u (live_of_update hlive hu)
    obtain rfl : u = t := by omega
    exact hnew (live_update_self.mp hu)

theorem alive_keep (halive : Alive s' ↔ Alive s) (hfails : ¬ e.Fails) :
    (Alive s' ↔ Alive s ∧ ¬ e.Fails) ∨ ¬ Untouched s' ∧ (Alive s' → Alive s) :=
  Or.inl (halive.trans (and_iff_left hfails).symm)

/-- A step leaves alive what is alive exactly if it is no exception, and `on-close` brings nothing
to life. -/
theorem alive_step (hs : Waits s) (hstep : step s e = some s') :
    (Alive s' ↔ Alive s ∧ ¬ e.Fails) ∨ ¬ Untouched s' ∧ (Alive s' → Alive s) := by
  cases move_of_step hstep with
  | fire hmain => exact alive_keep (alive_advance _ (hmain ▸ nofun) nofun) id
  | served connected hmain =>
      refine alive_keep (alive_advance _ (hmain ▸ nofun) ?_) id
      cases connected <;> exact nofun
  | raise hmain =>
      refine Or.inl (iff_of_false ?_ fun h => h.2 trivial)
      rintro (htimer | hcreating | ⟨t, hlive⟩)
      · exact Bool.false_ne_true htimer
      · cases hcreating
      · exact hs.not_live_of_timer (hs.asking (hmain ▸ trivial)) t hlive
  | close hmain => exact alive_keep (alive_advance _ (hmain ▸ nofun) nofun) id
  | test hmain =>
      refine alive_keep (alive_advance _ (hmain ▸ nofun) ?_) id
      cases s.waitThreadId <;> exact nofun
  | stop hmain =>
      have htimer := hs.asking (hmain ▸ trivial)
      exact Or.inl (iff_of_true (Or.inr (Or.inl rfl)) ⟨Or.inl htimer, id⟩)
  | create hmain =>
      refine Or.inl (iff_of_true ?_ ⟨Or.inr (Or.inl hmain), id⟩)
      exact Or.inr (Or.inr ⟨s.created, live_update_self.mpr trivial⟩)
  | set t hmain => exact alive_keep (alive_advance _ (hmain ▸ nofun) nofun) id
  | closeTest hmain =>
      refine alive_keep (alive_advance _ (hmain ▸ nofun) ?_) id
      cases s.waitThreadId <;> exact nofun
  | kill t hmain hwait =>
      refine Or.inr ⟨fun hopen => hopen.2 rfl, ?_⟩
      rintro (htimer | hcreating | ⟨u, hlive⟩)
      · exact Or.inl htimer
      · cases hcreating
      · rcases killThread_pc t s u with ⟨-, hsame⟩ | hdead
        · exact Or.inr (Or.inr ⟨u, hsame ▸ hlive⟩)
        · exact absurd hlive hdead
  | killRaises hmain => exact alive_keep (alive_advance _ (hmain ▸ nofun) nofun) id
  | closeStop hmain =>
      refine Or.inr ⟨fun hopen => Bool.false_ne_true hopen.1.symm, ?_⟩
      rintro (htimer | hcreating | hlive)
      · exact absurd htimer Bool.false_ne_true
      · cases hcreating
      · exact Or.inr (Or.inr hlive)
  | found t hpc => exact alive_keep (alive_move _ (hpc ▸ trivial) (Or.inl trivial)) id
  | failed t hpc =>
      exact Or.inl (iff_of_false (hs.not_alive_update (hpc ▸ trivial) id) fun h => h.2 trivial)
  | clear t hpc => exact alive_keep (alive_move _ (hpc ▸ trivial) (Or.inl trivial)) id
  | start t hpc => exact alive_keep (alive_move _ (hpc ▸ trivial) (Or.inr rfl)) id

theorem alive_of_step (hs : Waits s) (hstep : step s e = some s') (halive : Alive s') :
    Alive s := by
  rcases alive_step hs hstep with hiff | ⟨-, hback⟩
  · exact (hiff.mp halive).1
  · exact hback halive

open Transition

theorem Untouched.of_run {es : List Event} (hrun : exec step s es = some s')
    (hopen : Untouched s') : Untouched s := by
  by_contra hclosing
  refine exec_invariant (I := fun s => ¬ Untouched s) ?_ hclosing hrun hopen
  intro s e s' hs hstep hopen
  exact hs (hopen.of_step hstep)

/-- Everything goes on exactly until a frame or a wait raises. -/
theorem alive_run_iff {es : List Event} (hs : Waits s) (hrun : exec step s es = some s')
    (hopen : Untouched s') : Alive s' ↔ Alive s ∧ ∀ e ∈ es, ¬ e.Fails := by
  induction es generalizing s with
  | nil =>
      obtain rfl : s = s' := Option.some.inj hrun
      exact (and_iff_left (fun e he => absurd he List.not_mem_nil)).symm
  | cons e es ih =>
      obtain ⟨u, hu, hrest⟩ := (exec_cons_eq_some_iff step).mp hrun
      have hstep := (alive_step hs hu).resolve_right fun h => h.1 (hopen.of_run hrest)
      rw [ih (hs.step hu) hrest, hstep, List.forall_mem_cons, and_assoc]

/-- The run can go on to a further call of `fb-capture`. -/
def Captures (s : Capture) : Prop :=
  ∃ es s', exec step s es = some s' ∧ (step s' .fire).isSome

theorem Captures.of_step (hstep : step s e = some s') (hs : Captures s') : Captures s := by
  obtain ⟨es, t, hrun, ht⟩ := hs
  exact ⟨e :: es, t, (exec_cons_eq_some_iff step).mpr ⟨s', hstep, hrun⟩, ht⟩

theorem captures_of_timer (hmain : s.main = .idle) (htimer : s.timer = true) : Captures s := by
  refine ⟨[], s, rfl, ?_⟩
  rw [step, if_pos ⟨hmain, htimer⟩]
  rfl

/-- A thread that waits can find a device, and goes on to start the timer. -/
theorem captures_of_live {t : Nat} (hmain : s.main = .idle) (hlive : (s.pc t).Live) :
    Captures s := by
  have hstarting : ∀ s : Capture, s.main = .idle → s.pc t = .starting → Captures s := by
    intro s hmain hpc
    refine Captures.of_step (e := .run t) (by rw [step, hpc]) ?_
    exact captures_of_timer hmain rfl
  have hclearing : ∀ s : Capture, s.main = .idle → s.pc t = .clearing → Captures s := by
    intro s hmain hpc
    refine Captures.of_step (e := .run t) (by rw [step, hpc]) ?_
    exact hstarting _ hmain (Function.update_self _ _ _)
  cases hpc : s.pc t with
  | waiting =>
      refine Captures.of_step (e := .found t) (if_pos hpc) ?_
      exact hclearing _ hmain (Function.update_self _ _ _)
  | clearing => exact hclearing s hmain hpc
  | starting => exact hstarting s hmain hpc
  | unborn | ended | raised | killed => exact absurd hlive (hpc ▸ id)

theorem captures_of_idle (hmain : s.main = .idle) (halive : Alive s) : Captures s := by
  rcases halive with htimer | hcreating | ⟨t, hlive⟩
  · exact captures_of_timer hmain htimer
  · exact nomatch hmain.symm.trans hcreating
  · exact captures_of_live hmain hlive

theorem captures_of_creating (hmain : s.main = .creating) : Captures s := by
  refine Captures.of_step (e := .main) (by rw [step, mainStep, hmain]) ?_
  refine Captures.of_step (e := .main) rfl ?_
  exact captures_of_live rfl (live_update_self.mpr trivial)

theorem captures_of_stopping (hmain : s.main = .stopping) : Captures s :=
  Captures.of_step (e := .main) (by rw [step, mainStep, hmain]) (captures_of_creating rfl)

theorem captures_of_alive (hs : Waits s) (hopen : Open s) (halive : Alive s) : Captures s := by
  obtain ⟨-, hclosing, hkilling, hstopping⟩ := hopen
  cases hmain : s.main with
  | idle => exact captures_of_idle hmain halive
  | capturing =>
      have htimer := hs.asking (hmain ▸ trivial)
      refine Captures.of_step (e := .served true) (if_pos hmain) ?_
      exact captures_of_timer rfl htimer
  | testing =>
      have htimer := hs.asking (hmain ▸ trivial)
      refine Captures.of_step (e := .main) (by rw [step, mainStep, hmain]) ?_
      cases s.waitThreadId with
      | none => exact captures_of_stopping rfl
      | some t => exact captures_of_timer rfl htimer
  | stopping => exact captures_of_stopping hmain
  | creating => exact captures_of_creating hmain
  | setting t =>
      refine Captures.of_step (e := .main) (by rw [step, mainStep, hmain]) ?_
      refine captures_of_idle rfl ((alive_advance _ ?_ ?_).mpr halive)
      · exact hmain ▸ nofun
      · exact nofun
  | closing => exact absurd hmain hclosing
  | killing => exact absurd hmain hkilling
  | closeStopping => exact absurd hmain hstopping

theorem Captures.alive (hs : Waits s) (hcaptures : Captures s) : Alive s := by
  obtain ⟨es, s', hrun, hfire⟩ := hcaptures
  obtain ⟨u, hfire⟩ := Option.isSome_iff_exists.mp hfire
  by_contra hdead
  have hinv : Waits s' ∧ ¬ Alive s' := by
    refine exec_invariant (I := fun s => Waits s ∧ ¬ Alive s) ?_ ⟨hs, hdead⟩ hrun
    rintro s e s' ⟨hs, hdead⟩ hstep
    exact ⟨hs.step hstep, fun halive => hdead (alive_of_step hs hstep halive)⟩
  cases move_of_step hfire with
  | fire hmain htimer => exact hinv.2 (Or.inl htimer)

/-- As long as the window is open, a frame can still be asked for exactly if no frame and no wait
has raised so far. -/
theorem captures_iff {es : List Event} (hrun : exec step started es = some s) (hopen : Open s) :
    Captures s ↔ ∀ e ∈ es, ¬ e.Fails := by
  have hwaits : Waits s := exec_invariant (fun _ _ _ hs => hs.step) waits_started hrun
  have hstarted : Alive started := Or.inl rfl
  have halive := alive_run_iff waits_started hrun hopen.untouched
  rw [and_iff_right hstarted] at halive
  exact Iff.trans ⟨Captures.alive hwaits, captures_of_alive hwaits hopen⟩ halive

/-- A device goes and comes back, and then the server goes. -/
def unplugged : List Event :=
  [.fire, .served false, .main, .main, .main, .found 0, .main, .run 0, .run 0, .fire, .served false]

theorem unplugged_captures :
    ∃ s, exec step started unplugged = some s ∧ (Captures s ↔ ∀ e ∈ unplugged, ¬ e.Fails) :=
  ⟨_, rfl, captures_iff rfl ⟨rfl, nofun, nofun, nofun⟩⟩

end CodeSlices.SevenSquare
