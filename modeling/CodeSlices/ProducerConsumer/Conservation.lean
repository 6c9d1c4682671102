import Mathlib.Algebra.Order.BigOperators.Group.Finset
import Mathlib.Tactic.Ring
import CodeSlices.ProducerConsumer.Step

/-!
# No item is created, dropped or counted twice

The three counters move together: a push takes one from `nums` and puts it in the buffer, a pop
takes one from the buffer and puts it on a score, and no other step touches them. So their sum is
what it was at the start, the buffer index stays in the array, and no access is out of bounds.
-/

namespace CodeSlices.ProducerConsumer

open CodeSlices.Transition CodeSlices.WaitSet

variable {bufferMax threadNums : Nat} {s t : State bufferMax threadNums} {e : Event threadNums}

theorem step_counters (hstep : step s e = some t) :
    (t.globals.current = s.globals.current ∧ t.nums = s.nums ∧ t.score = s.score) ∨
      (0 < s.nums ∧ s.globals.current < bufferMax ∧
        t.globals.current = s.globals.current + 1 ∧ t.nums = s.nums - 1 ∧ t.score = s.score) ∨
      (∃ i, 0 < s.globals.current ∧ t.globals.current = s.globals.current - 1 ∧ t.nums = s.nums ∧
        t.score = Function.update s.score i (s.score i + 1)) := by
  cases move_of_step hstep with
  | push buffer hpc hnums hlo hhi hsignal => exact Or.inr (Or.inl ⟨hnums, hhi, rfl, rfl, rfl⟩)
  | pop i hpc hend hlo hhi hsignal => exact Or.inr (Or.inr ⟨i, hlo, rfl, rfl, rfl⟩)
  | _ => exact Or.inl ⟨rfl, rfl, rfl⟩

theorem sum_update_add_one (score : Fin threadNums → Int) (i : Fin threadNums) :
    ∑ j, Function.update score i (score i + 1) j = ∑ j, score j + 1 := by
  rw [Finset.sum_update_of_mem (Finset.mem_univ i), Finset.sdiff_singleton_eq_erase,
    ← Finset.add_sum_erase Finset.univ score (Finset.mem_univ i)]
  ring

/-- The counters of a program that started with `dataNums` items to produce. -/
structure Conserved (dataNums : Int) (s : State bufferMax threadNums) : Prop where
  current_nonneg : 0 ≤ s.globals.current
  current_le : s.globals.current ≤ bufferMax
  nums_nonneg : 0 ≤ s.nums
  score_nonneg : ∀ i, 0 ≤ s.score i
  total : dataNums = s.nums + s.globals.current + ∑ i, s.score i

theorem conserved_initial (bufferMax threadNums : Nat) {dataNums : Int} (hdata : 0 ≤ dataNums) :
    Conserved dataNums (initial bufferMax threadNums dataNums) where
  current_nonneg := le_refl _
  current_le := Int.natCast_nonneg bufferMax
  nums_nonneg := hdata
  score_nonneg := fun _ => le_refl _
  total := by simp [initial]

theorem conserved_step {dataNums : Int} (hs : Conserved dataNums s) (hstep : step s e = some t) :
    Conserved dataNums t := by
  obtain ⟨hcurrent, hle, hnums, hscore, htotal⟩ := hs
  rcases step_counters hstep with ⟨hcurrent', hnums', hscore'⟩ |
    ⟨hpos, hroom, hcurrent', hnums', hscore'⟩ | ⟨i, hpos, hcurrent', hnums', hscore'⟩
  · refine ⟨by omega, by omega, by omega, hscore' ▸ hscore, ?_⟩
    rw [hcurrent', hnums', hscore', htotal]
  · refine ⟨by omega, by omega, by omega, hscore' ▸ hscore, ?_⟩
    rw [hcurrent', hnums', hscore', htotal]
    ring
  · refine ⟨by omega, by omega, by omega, fun j => ?_, ?_⟩
    · have hone := hscore i
      rw [hscore']
      by_cases heq : j = i
      · subst heq
        rw [Function.update_self]
        omega
      · rw [Function.update_of_ne heq]
        exact hscore j
    · rw [hcurrent', hnums', hscore', sum_update_add_one, htotal]
      ring

theorem conserved_of_reachable {dataNums : Int} (hdata : 0 ≤ dataNums)
    (hreach : Reachable step (initial bufferMax threadNums dataNums) s) : Conserved dataNums s :=
  hreach.invariant (fun _ _ _ => conserved_step) (conserved_initial bufferMax threadNums hdata)

theorem Conserved.score_le {dataNums : Int} (hs : Conserved dataNums s) (i : Fin threadNums) :
    s.score i ≤ dataNums := by
  have hsingle : s.score i ≤ ∑ j, s.score j :=
    Finset.single_le_sum (fun j _ => hs.score_nonneg j) (Finset.mem_univ i)
  have hcurrent := hs.current_nonneg
  have hnums := hs.nums_nonneg
  have htotal := hs.total
  omega

/-- `buffer[current]` is inside the array whenever the producer writes it. -/
theorem Conserved.producerThread_ok {dataNums : Int} (hs : Conserved dataNums s) (nums : Int) :
    ∃ result, producerThread s.globals nums = .ok result := by
  unfold producerThread
  by_cases hfull : bufferIsFull s.globals = true
  · rw [if_pos hfull]
    exact ⟨_, rfl⟩
  · rw [if_neg hfull]
    have hne : s.globals.current ≠ bufferMax := by simpa [bufferIsFull] using hfull
    have hle := hs.current_le
    obtain ⟨buffer, hstore⟩ := s.globals.store_of_mem nums hs.current_nonneg (by omega)
    rw [hstore]
    exact ⟨_, rfl⟩

/-- `buffer[current - 1]` is inside the array whenever a consumer reads it. -/
theorem Conserved.consumerThread_ok {dataNums : Int} (hs : Conserved dataNums s) (score : Int) :
    ∃ result, consumerThread s.globals score = .ok result := by
  unfold consumerThread
  by_cases hend : s.globals.endFlag = true
  · rw [if_pos hend]
    exact ⟨_, rfl⟩
  · rw [if_neg hend]
    by_cases hempty : bufferIsEmpty s.globals = true
    · rw [if_pos hempty]
      exact ⟨_, rfl⟩
    · rw [if_neg hempty]
      have hne : s.globals.current ≠ 0 := by simpa [bufferIsEmpty] using hempty
      have hcurrent := hs.current_nonneg
      have hle := hs.current_le
      have hlo : 0 ≤ s.globals.current - 1 := by omega
      obtain ⟨value, hload⟩ := s.globals.load_of_mem hlo (by omega)
      rw [hload]
      exact ⟨_, rfl⟩

end CodeSlices.ProducerConsumer
