import CodeSlices.SevenSquare.Capture

/-!
# The end of the window

`on-close` of `lisp/seven-square.rkt` kills the thread that waits and stops the timer. A thread that
has taken its number back already is not killed, and can start the timer again.
-/

namespace CodeSlices.SevenSquare

variable {s s' : Capture} {e : Event}

/-- Once the window is closed nothing can happen any more. -/
def Ended (s : Capture) : Prop := s.closed = true → ∀ e, step s e = none

/-- There is nothing left that could start the timer. -/
def Final (s : Capture) : Prop := s.main = .idle ∧ s.timer = false ∧ ∀ t, ¬ (s.pc t).Live

/-- No thread is about to start the timer when `on-close` stops it. -/
def Settles (s : Capture) : Event → Prop
  | .main => s.main = .closeStopping → ∀ t, s.pc t ≠ .starting
  | _ => True

theorem exists_step_of_live {t : Nat} (hlive : (s.pc t).Live) : ∃ e, step s e ≠ none := by
  cases hpc : s.pc t with
  | waiting => exact ⟨.found t, by rw [step, if_pos hpc]; exact Option.some_ne_none _⟩
  | clearing => exact ⟨.run t, by rw [step, hpc]; exact Option.some_ne_none _⟩
  | starting => exact ⟨.run t, by rw [step, hpc]; exact Option.some_ne_none _⟩
  | unborn | ended | raised | killed => exact absurd hlive (hpc ▸ id)

theorem mainStep_ne_none (hidle : s.main ≠ .idle) (hcapturing : s.main ≠ .capturing) :
    mainStep s ≠ none := by
  rw [mainStep]
  cases hmain : s.main with
  | idle => exact absurd hmain hidle
  | capturing => exact absurd hmain hcapturing
  | killing => cases s.waitThreadId <;> exact Option.some_ne_none _
  | testing | stopping | creating | setting | closing | closeStopping =>
      exact Option.some_ne_none _

theorem exists_step_of_main (hidle : s.main ≠ .idle) : ∃ e, step s e ≠ none := by
  by_cases hcapturing : s.main = .capturing
  · exact ⟨.raise, by rw [step, if_pos hcapturing]; exact Option.some_ne_none _⟩
  · exact ⟨.main, mainStep_ne_none hidle hcapturing⟩

theorem final_iff (hclosed : s.closed = true) : (∀ e, step s e = none) ↔ Final s := by
  constructor
  · intro hnone
    have hmain : s.main = .idle := by
      by_contra hmain
      obtain ⟨e, he⟩ := exists_step_of_main hmain
      exact he (hnone e)
    refine ⟨hmain, Bool.eq_false_iff.mpr fun htimer => ?_, fun t hlive => ?_⟩
    · have hfire := hnone .fire
      rw [step, if_pos ⟨hmain, htimer⟩] at hfire
      exact Option.some_ne_none _ hfire
    · obtain ⟨e, he⟩ := exists_step_of_live hlive
      exact he (hnone e)
  · rintro ⟨hidle, htimer, hdead⟩ e
    by_contra hstep
    obtain ⟨s', hstep⟩ := Option.ne_none_iff_exists'.mp hstep
    cases move_of_step hstep with
    | fire _ hrunning => exact Bool.false_ne_true (htimer.symm.trans hrunning)
    | close _ hopen => exact Bool.false_ne_true (hopen.symm.trans hclosed)
    | served _ hmain | raise hmain | test hmain | stop hmain | create hmain | set _ hmain
    | closeTest hmain | kill _ hmain | killRaises hmain | closeStop hmain =>
        rw [hidle] at hmain
        cases hmain
    | found t hpc | failed t hpc | clear t hpc | start t hpc => exact hdead t (hpc ▸ trivial)

theorem ended_iff : Ended s ↔ (s.closed = true → Final s) :=
  forall_congr' fun hclosed => final_iff hclosed

/-- The thread has not taken its number back yet. -/
def Pc.Holds : Pc → Prop
  | .waiting => True
  | .clearing => True
  | _ => False

def MainPc.Creating : MainPc → Prop
  | .stopping => True
  | .creating => True
  | .setting _ => True
  | _ => False

/-- What `wait-thread-id` says about the threads. -/
structure Held (s : Capture) : Prop where
  last : ∀ t, s.waitThreadId = some t → t + 1 = s.created
  free : s.main.Creating → s.waitThreadId = none
  setting : ∀ t, s.main = .setting t → t + 1 = s.created
  held : ∀ t, (s.pc t).Holds → s.main = .setting t ∨ s.waitThreadId = some t
  killed : s.main = .closeStopping → ∀ t, ¬ (s.pc t).Holds

theorem held_started : Held started :=
  ⟨nofun, False.elim, nofun, fun _ => False.elim, nofun⟩

theorem Pc.Holds.live {pc : Pc} (hholds : pc.Holds) : pc.Live := by
  cases pc with
  | waiting | clearing => trivial
  | _ => exact hholds.elim

theorem live_iff {pc : Pc} : pc.Live ↔ pc.Holds ∨ pc = .starting := by
  cases pc with
  | waiting | clearing => exact iff_of_true trivial (Or.inl trivial)
  | starting => exact iff_of_true trivial (Or.inr rfl)
  | unborn | ended | raised | killed => exact iff_of_false id nofun

theorem Held.advance (hs : Held s) (timer closed : Bool) {main : MainPc}
    (hold : ∀ t, s.main ≠ .setting t) (hnew : ∀ t, main ≠ .setting t)
    (hfree : main.Creating → s.waitThreadId = none)
    (hkilled : main = .closeStopping → s.waitThreadId = none) :
    Held { s with timer := timer, main := main, closed := closed } := by
  have hheld : ∀ t, (s.pc t).Holds → s.waitThreadId = some t :=
    fun t ht => (hs.held t ht).resolve_left (hold t)
  refine ⟨hs.last, hfree, fun t h => absurd h (hnew t), fun t ht => Or.inr (hheld t ht),
    fun h t ht => ?_⟩
  exact nomatch (hkilled h).symm.trans (hheld t ht)

/-- A thread that goes on without taking its number back, or not at all. -/
theorem Held.move (hs : Held s) (timer : Bool) {t : Nat} (new : Pc)
    (hnew : new.Holds → (s.pc t).Holds) :
    Held { s with timer := timer, pc := Function.update s.pc t new } := by
  have hfewer : ∀ u, (Function.update s.pc t new u).Holds → (s.pc u).Holds := by
    intro u hu
    rcases eq_or_ne u t with rfl | hne
    · rw [Function.update_self] at hu
      exact hnew hu
    · rwa [Function.update_of_ne hne] at hu
  exact ⟨hs.last, hs.free, hs.setting, fun u hu => hs.held u (hfewer u hu),
    fun hmain u hu => hs.killed hmain u (hfewer u hu)⟩

theorem Held.step (hs : Held s) (hwaits : Waits s) (hstep : step s e = some s') : Held s' := by
  cases move_of_step hstep with
  | fire hmain => exact hs.advance _ _ (hmain ▸ nofun) nofun False.elim nofun
  | served connected hmain =>
      cases connected <;> exact hs.advance _ _ (hmain ▸ nofun) nofun False.elim nofun
  | raise hmain => exact hs.advance _ _ (hmain ▸ nofun) nofun False.elim nofun
  | close hmain => exact hs.advance _ _ (hmain ▸ nofun) nofun False.elim nofun
  | test hmain =>
      refine hs.advance _ _ (hmain ▸ nofun) ?_ ?_ ?_
      · cases s.waitThreadId <;> exact nofun
      · cases s.waitThreadId with
        | none => exact fun _ => rfl
        | some t => exact False.elim
      · cases s.waitThreadId <;> exact nofun
  | stop hmain =>
      exact hs.advance _ _ (hmain ▸ nofun) nofun (fun _ => hs.free (hmain ▸ trivial)) nofun
  | create hmain =>
      have hfree := hs.free (hmain ▸ trivial)
      obtain ⟨-, hnone⟩ := hwaits.creating hmain
      refine ⟨fun t ht => ?_, fun _ => hfree, ?_, ?_, nofun⟩
      · exact nomatch hfree.symm.trans ht
      · intro t ht
        rw [← MainPc.setting.inj ht]
      · intro u hu
        rcases eq_or_ne u s.created with rfl | hne
        · exact Or.inl rfl
        · have hpc := Function.update_of_ne hne .waiting s.pc
          exact absurd (hpc ▸ hu : (s.pc u).Holds).live (hnone u)
  | set t hmain =>
      have hfree := hs.free (hmain ▸ trivial)
      refine ⟨?_, False.elim, nofun, fun u hu => ?_, nofun⟩
      · intro u hu
        rw [← Option.some.inj hu]
        exact hs.setting t hmain
      · rcases hs.held u hu with hsetting | hwait
        · exact Or.inr (congrArg some (MainPc.setting.inj (hmain.symm.trans hsetting)))
        · exact nomatch hfree.symm.trans hwait
  | closeTest hmain =>
      refine hs.advance _ _ (hmain ▸ nofun) ?_ ?_ ?_
      · cases s.waitThreadId <;> exact nofun
      · cases s.waitThreadId <;> exact False.elim
      · cases s.waitThreadId with
        | none => exact fun _ => rfl
        | some t => exact nofun
  | kill t hmain hwait =>
      have hnone : ∀ u, ¬ ((killThread t s).pc u).Holds := by
        intro u hu
        rcases killThread_pc t s u with ⟨hne, hsame⟩ | hdead
        · rw [hsame] at hu
          rcases hs.held u hu with hsetting | hwait'
          · exact nomatch hmain.symm.trans hsetting
          · exact hne (Option.some.inj (hwait'.symm.trans hwait))
        · exact hdead hu.live
      exact ⟨hs.last, False.elim, nofun, fun u hu => absurd hu (hnone u), fun _ => hnone⟩
  | killRaises hmain => exact hs.advance _ _ (hmain ▸ nofun) nofun False.elim nofun
  | closeStop hmain => exact hs.advance _ _ (hmain ▸ nofun) nofun False.elim nofun
  | found t hpc => exact hs.move _ _ fun _ => hpc ▸ trivial
  | failed t hpc => exact hs.move _ _ False.elim
  | clear t hpc =>
      have hlive : (s.pc t).Live := hpc ▸ trivial
      have hnone : ∀ u, ¬ (Function.update s.pc t .starting u).Holds := by
        intro u hu
        have hlast := hwaits.last t hlive
        have hlast' := hwaits.last u (live_of_update hlive hu.live)
        obtain rfl : u = t := by omega
        rw [Function.update_self] at hu
        exact hu
      exact ⟨nofun, fun _ => rfl, hs.setting, fun u hu => absurd hu (hnone u), fun _ => hnone⟩
  | start t hpc => exact hs.move _ _ False.elim

/-- Only a thread that is about to start the timer outlives `on-close`. -/
theorem ended_step_iff (hheld : Held s) (hended : Ended s) (hstep : step s e = some s') :
    Ended s' ↔ Settles s e := by
  by_cases hclosed : s.closed = true
  · exact absurd hstep (by rw [hended hclosed e]; exact nofun)
  · cases move_of_step hstep with
    | closeStop hmain =>
        rw [ended_iff, Settles]
        constructor
        · rintro hfinal - t ht
          exact (hfinal rfl).2.2 t (ht ▸ trivial)
        · intro hsettles _
          refine ⟨rfl, rfl, fun t hlive => ?_⟩
          exact (live_iff.mp hlive).elim (hheld.killed hmain t) (hsettles hmain t)
    | fire hmain | served _ hmain | raise hmain | close hmain =>
        exact iff_of_true (fun h => absurd h hclosed) trivial
    | test hmain | stop hmain | create hmain | set _ hmain | closeTest hmain | kill _ hmain
    | killRaises hmain =>
        refine iff_of_true (fun h => absurd h hclosed) fun hstopping => ?_
        exact nomatch hmain.symm.trans hstopping
    | found t hpc | failed t hpc | clear t hpc | start t hpc =>
        exact iff_of_true (fun h => absurd h hclosed) trivial

theorem settles_of_step_eq_none (hnone : step s e = none) : Settles s e := by
  cases e with
  | main =>
      intro hmain
      exact absurd hnone (mainStep_ne_none (hmain ▸ nofun) (hmain ▸ nofun))
  | fire | served | raise | close | found | failed | run => trivial

/-- In every run: nothing happens any more from the end of the window on exactly if no thread is
between taking its number back and the start of the timer whenever `on-close` stops that. -/
theorem throughout_ended_iff (es : List Event) :
    Transition.Throughout step Ended started es ↔ Transition.Guarded step Settles started es := by
  refine Transition.throughout_iff_guarded (I := fun s => Waits s ∧ Held s) ?_ ?_
    (fun _ _ => settles_of_step_eq_none) es ⟨waits_started, held_started⟩ nofun
  · rintro s e s' ⟨hwaits, hheld⟩ hstep
    exact ⟨hwaits.step hstep, hheld.step hwaits hstep⟩
  · rintro s e s' ⟨-, hheld⟩ hended hstep
    exact ended_step_iff hheld hended hstep

end CodeSlices.SevenSquare
