import CodeSlices.ProducerConsumer.Conservation
import CodeSlices.ProducerConsumer.Phases

/-!
# Shutdown drops what is left in the buffer

A consumer tests `end` before it looks at the buffer, so nothing is popped once `main` has set it,
and what is in the buffer then stays there. The items are all consumed exactly when the buffer is
empty at that moment.
-/

namespace CodeSlices.ProducerConsumer

open CodeSlices.Transition CodeSlices.WaitSet

variable {bufferMax threadNums : Nat} {s t : State bufferMax threadNums} {e : Event threadNums}

def MainPc.AllJoined (threadNums : Nat) : MainPc → Prop
  | .joinConsumer i => threadNums ≤ i
  | .returned => True
  | _ => False

theorem MainPc.AllJoined.ended {main : MainPc} (hjoined : main.AllJoined threadNums) :
    main.Ended := by
  cases main with
  | joinConsumer i => trivial
  | returned => trivial
  | _ => exact hjoined.elim

/-- If this step sets `end`, it does so on the empty buffer. -/
def EndsOnEmpty (s : State bufferMax threadNums) (e : Event threadNums) : Prop :=
  e = .main → s.main = .setEnd → s.globals.current = 0

instance (s : State bufferMax threadNums) (e : Event threadNums) : Decidable (EndsOnEmpty s e) :=
  inferInstanceAs (Decidable (_ → _ → _))

/-- Once `end` is set the buffer is empty. -/
def Drained (s : State bufferMax threadNums) : Prop := s.main.Ended → s.globals.current = 0

theorem current_of_ended (hphases : Phases s) (hended : s.main.Ended) (hstep : step s e = some t) :
    t.main.Ended ∧ t.globals.current = s.globals.current := by
  have hend : s.globals.endFlag = true := hphases.ended.mpr hended
  have hexited : s.pc .producer = .exited := hphases.producer_exited hended.producerJoined
  cases move_of_step hstep with
  | push buffer hpc =>
      rw [hexited] at hpc
      cases hpc
  | pop i hpc hendFlag =>
      rw [hend] at hendFlag
      cases hendFlag
  | createConsumer i hmain => exact (hmain ▸ hended).elim
  | consumersCreated i hmain => exact (hmain ▸ hended).elim
  | createProducer hmain => exact (hmain ▸ hended).elim
  | joinProducer hmain => exact (hmain ▸ hended).elim
  | setEnd hmain => exact (hmain ▸ hended).elim
  | joinConsumer i hmain => exact ⟨trivial, rfl⟩
  | consumersJoined i hmain => exact ⟨trivial, rfl⟩
  | _ => exact ⟨hended, rfl⟩

theorem setEnd_of_ended (hended : ¬ s.main.Ended) (hstep : step s e = some t)
    (hended' : t.main.Ended) : e = .main ∧ s.main = .setEnd := by
  by_cases he : e = .main
  · subst he
    refine ⟨rfl, ?_⟩
    cases move_of_step hstep with
    | setEnd hmain => exact hmain
    | joinConsumer i hmain => exact absurd (hmain ▸ trivial) hended
    | consumersJoined i hmain => exact absurd (hmain ▸ trivial) hended
    | _ => exact hended'.elim
  · obtain ⟨hmain, _⟩ := pc_of_thread_step hstep he
    exact absurd (hmain ▸ hended') hended

theorem current_of_setEnd (hmain : s.main = .setEnd) (hstep : step s .main = some t) :
    t.main.Ended ∧ t.globals.current = s.globals.current := by
  simp only [step, mainStep, hmain, Option.some.injEq] at hstep
  subst hstep
  exact ⟨trivial, rfl⟩

theorem drained_step (hphases : Phases s) (hstep : step s e = some t) :
    Drained t ↔ Drained s ∧ EndsOnEmpty s e := by
  by_cases hended : s.main.Ended
  · obtain ⟨hended', hcurrent⟩ := current_of_ended hphases hended hstep
    have hguard : EndsOnEmpty s e := by
      intro _ hmain
      rw [hmain] at hended
      exact hended.elim
    simp only [Drained, hended, hended', hcurrent, forall_const, hguard, and_true]
  · have hdrained : Drained s := fun h => absurd h hended
    constructor
    · refine fun ht => ⟨hdrained, fun he hmain => ?_⟩
      subst he
      obtain ⟨hended', hcurrent⟩ := current_of_setEnd hmain hstep
      rw [← hcurrent]
      exact ht hended'
    · rintro ⟨_, hguard⟩ hended'
      obtain ⟨rfl, hmain⟩ := setEnd_of_ended hended hstep hended'
      rw [(current_of_setEnd hmain hstep).2]
      exact hguard rfl hmain

/-- One item and one consumer that runs only after `main` has set `end`. -/
def lateConsumer : List (Event 1) :=
  [.main, .main, .main, .critical .producer none, .finish, .main, .main,
    .critical (.consumer (Fin.last 0)) none, .main, .main]

/-- The same threads, with the item popped before `main` joins the producer. -/
def earlyConsumer : List (Event 1) :=
  [.main, .main, .main, .critical .producer none, .critical (.consumer (Fin.last 0)) none, .finish,
    .main, .main, .critical (.consumer (Fin.last 0)) none, .main, .main]

end CodeSlices.ProducerConsumer
