import CodeSlices.ProducerConsumer.Step

/-!
# The phases of `main`

Where `main` stands says which threads exist, whether the producer has come to its end, and whether
`end` is set.
-/

namespace CodeSlices.ProducerConsumer

open CodeSlices.Transition CodeSlices.WaitSet

variable {bufferMax threadNums : Nat} {s t : State bufferMax threadNums} {e : Event threadNums}

def MainPc.Creating : MainPc → Prop
  | .createConsumer _ => True
  | .createProducer => True
  | _ => False

/-- `main` is past `pthread_join (p_thread, NULL)`. -/
def MainPc.ProducerJoined : MainPc → Prop
  | .setEnd => True
  | .joinConsumer _ => True
  | .returned => True
  | _ => False

/-- `main` is past the critical section that sets `end`. -/
def MainPc.Ended : MainPc → Prop
  | .joinConsumer _ => True
  | .returned => True
  | _ => False

theorem MainPc.Ended.producerJoined {main : MainPc} (hended : main.Ended) :
    main.ProducerJoined := by
  cases main with
  | joinConsumer i => trivial
  | returned => trivial
  | _ => exact hended.elim

structure Phases (s : State bufferMax threadNums) : Prop where
  consumer_unborn : ∀ k (i : Fin threadNums), s.main = .createConsumer k → k ≤ i →
    s.pc (.consumer i) = .unborn
  producer_unborn : s.main.Creating → s.pc .producer = .unborn
  producer_exited : s.main.ProducerJoined → s.pc .producer = .exited
  nums_of_exited : s.pc .producer = .exited → s.nums ≤ 0
  ended : s.globals.endFlag = true ↔ s.main.Ended

theorem phases_initial (bufferMax threadNums : Nat) (dataNums : Int) :
    Phases (initial bufferMax threadNums dataNums) := by
  refine ⟨fun _ _ _ _ => rfl, fun _ => rfl, fun hjoined => ?_, fun hpc => ?_, ?_⟩
  · exact False.elim hjoined
  · cases hpc
  · exact ⟨fun hend => (Bool.false_ne_true hend).elim, fun hended => False.elim hended⟩

theorem pc_of_thread_step (hstep : step s e = some t) (he : e ≠ .main) :
    t.main = s.main ∧ t.globals.endFlag = s.globals.endFlag ∧
      ∀ u, t.pc u = s.pc u ∨ (s.pc u = .loop ∨ s.pc u = .condWait) ∧ t.pc u ≠ .unborn := by
  have hupdate : ∀ (v : Thread threadNums) (pc : Pc), s.pc v = .loop ∨ s.pc v = .condWait →
      pc ≠ .unborn → ∀ u, Function.update s.pc v pc u = s.pc u ∨
        (s.pc u = .loop ∨ s.pc u = .condWait) ∧ Function.update s.pc v pc u ≠ .unborn := by
    intro v pc hv hpc u
    by_cases heq : u = v
    · subst heq
      rw [Function.update_self]
      exact Or.inr ⟨hv, hpc⟩
    · rw [Function.update_of_ne heq]
      exact Or.inl rfl
  cases move_of_step hstep with
  | push buffer hpc => exact ⟨rfl, rfl, fun _ => Or.inl rfl⟩
  | full hpc => exact ⟨rfl, rfl, hupdate _ _ (Or.inl hpc) (by decide)⟩
  | finish hpc => exact ⟨rfl, rfl, hupdate _ _ (Or.inl hpc) (by decide)⟩
  | pop i hpc => exact ⟨rfl, rfl, fun _ => Or.inl rfl⟩
  | empty i hpc => exact ⟨rfl, rfl, hupdate _ _ (Or.inl hpc) (by decide)⟩
  | leave i hpc => exact ⟨rfl, rfl, hupdate _ _ (Or.inl hpc) (by decide)⟩
  | resume u hpc => exact ⟨rfl, rfl, hupdate _ _ (Or.inr hpc) (by decide)⟩
  | spurious u => exact ⟨rfl, rfl, fun _ => Or.inl rfl⟩
  | _ => exact absurd rfl he

theorem nums_of_exited_step (hs : Phases s) (hstep : step s e = some t)
    (hexited : t.pc .producer = .exited) : t.nums ≤ 0 := by
  have hkeep : ∀ (v : Thread threadNums) (pc : Pc), (v = .producer → pc ≠ .exited) →
      Function.update s.pc v pc .producer = .exited → s.nums ≤ 0 := by
    intro v pc hv hpc
    by_cases heq : v = .producer
    · subst heq
      rw [Function.update_self] at hpc
      exact absurd hpc (hv rfl)
    · rw [Function.update_of_ne (Ne.symm heq)] at hpc
      exact hs.nums_of_exited hpc
  cases move_of_step hstep with
  | push buffer hpc =>
      rw [hpc] at hexited
      cases hexited
  | full hpc => exact hkeep .producer .condWait (fun _ => by decide) hexited
  | finish hpc hnums => exact hnums
  | pop i hpc => exact hs.nums_of_exited hexited
  | empty i hpc => exact hkeep (.consumer i) .condWait (fun _ => by decide) hexited
  | leave i hpc => exact hkeep (.consumer i) .exited (fun heq => by cases heq) hexited
  | resume u hpc => exact hkeep u .loop (fun _ => by decide) hexited
  | createConsumer i => exact hkeep (.consumer i) .loop (fun _ => by decide) hexited
  | createProducer => exact hkeep .producer .loop (fun _ => by decide) hexited
  | _ => exact hs.nums_of_exited hexited

/-- Another statement of `main`, once all consumers are created. -/
theorem Phases.advance (hs : Phases s) (pc : Thread threadNums → Pc)
    {main : MainPc} (hcreating : ∀ k, main ≠ .createConsumer k)
    (hunborn : main.Creating → pc .producer = .unborn)
    (hexited : main.ProducerJoined → pc .producer = .exited)
    (hnums : pc .producer = .exited → s.nums ≤ 0) (hended : s.main.Ended ↔ main.Ended) :
    Phases { s with pc := pc, main := main } :=
  ⟨fun k _ hmain => absurd hmain (hcreating k), hunborn, hexited, hnums, hs.ended.trans hended⟩

theorem phases_main_step (hs : Phases s) (hstep : step s .main = some t) : Phases t := by
  have hnums := nums_of_exited_step hs hstep
  cases move_of_step hstep with
  | createConsumer i hmain =>
      have hcreating : s.main.Creating := hmain ▸ trivial
      refine ⟨fun k j hk hle => ?_, fun _ => ?_, False.elim, hnums, ?_⟩
      · cases hk
        have hne : Thread.consumer j ≠ .consumer i := by
          rintro ⟨⟩
          omega
        exact (Function.update_of_ne hne .loop _).trans (hs.consumer_unborn i j hmain (by omega))
      · have hne : Thread.producer ≠ .consumer i := by rintro ⟨⟩
        exact (Function.update_of_ne hne .loop _).trans (hs.producer_unborn hcreating)
      · rw [hs.ended, hmain]
        exact Iff.rfl
  | consumersCreated i hmain hdone =>
      apply hs.advance s.pc
      · simp
      · exact fun _ => hs.producer_unborn (hmain ▸ trivial)
      · exact False.elim
      · exact hnums
      · rw [hmain]
        exact Iff.rfl
  | createProducer hmain =>
      apply hs.advance
      · simp
      · exact False.elim
      · exact False.elim
      · exact hnums
      · rw [hmain]
        exact Iff.rfl
  | joinProducer hmain hpc =>
      apply hs.advance s.pc
      · simp
      · exact False.elim
      · exact fun _ => hpc
      · exact hnums
      · rw [hmain]
        exact Iff.rfl
  | setEnd hmain =>
      have hexited := hs.producer_exited (hmain ▸ trivial)
      refine ⟨?_, False.elim, fun _ => hexited, hnums, iff_of_true rfl trivial⟩
      simp
  | joinConsumer i hmain hpc =>
      apply hs.advance s.pc
      · simp
      · exact False.elim
      · exact fun _ => hs.producer_exited (hmain ▸ trivial)
      · exact hnums
      · rw [hmain]
        exact Iff.rfl
  | consumersJoined i hmain hdone =>
      apply hs.advance s.pc
      · simp
      · exact False.elim
      · exact fun _ => hs.producer_exited (hmain ▸ trivial)
      · exact hnums
      · rw [hmain]
        exact Iff.rfl

theorem phases_thread_step (hs : Phases s) (hstep : step s e = some t) (he : e ≠ .main) :
    Phases t := by
  obtain ⟨hmain, hend, hpc⟩ := pc_of_thread_step hstep he
  have hkeep : ∀ u pc, pc ≠ .loop → pc ≠ .condWait → s.pc u = pc → t.pc u = pc := by
    rintro u _ hloop hwait rfl
    rcases hpc u with hsame | ⟨hrun, _⟩
    · exact hsame
    · exact absurd hrun (not_or.mpr ⟨hloop, hwait⟩)
  refine ⟨fun k i hk hle => ?_, fun hcreating => ?_, fun hjoined => ?_,
    nums_of_exited_step hs hstep, ?_⟩
  · exact hkeep _ .unborn (by decide) (by decide) (hs.consumer_unborn k i (hmain ▸ hk) hle)
  · exact hkeep _ .unborn (by decide) (by decide) (hs.producer_unborn (hmain ▸ hcreating))
  · exact hkeep _ .exited (by decide) (by decide) (hs.producer_exited (hmain ▸ hjoined))
  · rw [hend, hmain]
    exact hs.ended

theorem phases_step (hs : Phases s) (hstep : step s e = some t) : Phases t := by
  by_cases he : e = .main
  · subst he
    exact phases_main_step hs hstep
  · exact phases_thread_step hs hstep he

theorem phases_of_reachable {dataNums : Int}
    (hreach : Reachable step (initial bufferMax threadNums dataNums) s) : Phases s :=
  hreach.invariant (fun _ _ _ => phases_step) (phases_initial bufferMax threadNums dataNums)

end CodeSlices.ProducerConsumer
