import Mathlib.Data.Fintype.Card
import CodeSlices.ProducerConsumer.Phases

/-!
# One condition variable for both sides never leaves everybody asleep

A consumer falls asleep only on the empty buffer, and every push since then has woken a consumer as
long as one was asleep, so at most `threadNums - current` consumers sleep. The producer falls asleep
only on the full buffer, where fewer than `bufferMax` of them do when `threadNums < 2 * bufferMax`;
from then on every pop wakes one of the sleepers, so either it wakes the producer or fewer consumers
than items are left asleep.
-/

namespace CodeSlices.ProducerConsumer

open CodeSlices.Transition CodeSlices.WaitSet

variable {bufferMax threadNums : Nat} {s t : State bufferMax threadNums} {e : Event threadNums}

theorem others_producer_le (cond : Finset (Thread threadNums)) :
    others cond .producer ≤ threadNums := by
  have hsub : cond.erase .producer ⊆ Finset.univ.image Thread.consumer := by
    intro u hu
    cases u with
    | producer => exact absurd hu (Finset.notMem_erase _ _)
    | consumer i => exact Finset.mem_image_of_mem _ (Finset.mem_univ i)
  calc
    others cond .producer ≤ (Finset.univ.image Thread.consumer).card := Finset.card_le_card hsub
    _ ≤ (Finset.univ : Finset (Fin threadNums)).card := Finset.card_image_le
    _ = threadNums := by rw [Finset.card_univ, Fintype.card_fin]

theorem others_producer_eq {cond : Finset (Thread threadNums)} (hall : ∀ i, .consumer i ∈ cond) :
    others cond .producer = threadNums := by
  refine le_antisymm (others_producer_le cond) ?_
  have hsub : Finset.univ.image Thread.consumer ⊆ cond.erase .producer := by
    intro u hu
    obtain ⟨i, _, rfl⟩ := Finset.mem_image.mp hu
    exact Finset.mem_erase.mpr ⟨nofun, hall i⟩
  calc
    threadNums = (Finset.univ : Finset (Fin threadNums)).card := by
      rw [Finset.card_univ, Fintype.card_fin]
    _ = (Finset.univ.image Thread.consumer).card :=
      (Finset.card_image_of_injective _ fun _ _ => Thread.consumer.inj).symm
    _ ≤ others cond .producer := Finset.card_le_card hsub

def Waiting (s : State bufferMax threadNums) : Prop := ∀ u ∈ s.cond, s.pc u = .condWait

theorem waiting_step (hphases : Phases s) (hs : Waiting s) (hstep : step s e = some t) :
    Waiting t := by
  have hkeep : ∀ (v : Thread threadNums) (pc : Pc), s.pc v ≠ .condWait → ∀ u ∈ s.cond,
      Function.update s.pc v pc u = .condWait := by
    intro v pc hv u hu
    have hne : u ≠ v := fun heq => hv (heq ▸ hs u hu)
    rw [Function.update_of_ne hne, hs u hu]
  have hinsert : ∀ v : Thread threadNums, s.pc v = .loop → ∀ u ∈ insert v s.cond,
      Function.update s.pc v .condWait u = .condWait := by
    intro v hv u hu
    by_cases heq : u = v
    · rw [heq, Function.update_self]
    · have hmem : u ∈ s.cond := Finset.mem_of_mem_insert_of_ne hu heq
      rw [Function.update_of_ne heq, hs u hmem]
  cases move_of_step hstep with
  | push buffer hpc hnums hlo hhi hsignal => exact fun u hu => hs u (signal_subset hsignal hu)
  | full hpc => exact hinsert .producer hpc
  | finish hpc => exact hkeep .producer .exited (by rw [hpc]; decide)
  | pop i hpc hend hlo hhi hsignal => exact fun u hu => hs u (signal_subset hsignal hu)
  | empty i hpc => exact hinsert (.consumer i) hpc
  | leave i hpc => exact hkeep (.consumer i) .exited (by rw [hpc]; decide)
  | resume v hpc hcond =>
      intro u hu
      have hne : u ≠ v := fun heq => hcond (heq ▸ hu)
      exact (Function.update_of_ne hne .loop s.pc).trans (hs u hu)
  | spurious v => exact fun u hu => hs u (Finset.mem_of_mem_erase hu)
  | createConsumer i hmain =>
      refine hkeep (.consumer i) .loop ?_
      rw [hphases.consumer_unborn i i hmain (le_refl _)]
      decide
  | createProducer hmain =>
      refine hkeep .producer .loop ?_
      rw [hphases.producer_unborn (hmain ▸ trivial)]
      decide
  | setEnd => exact fun u hu => absurd hu (Finset.notMem_empty u)
  | _ => exact hs

/-- Who sleeps on `c_cond`, counted against the items in the buffer. -/
structure Awake (s : State bufferMax threadNums) : Prop where
  waiting : Waiting s
  consumers : others s.cond .producer = 0 ∨ others s.cond .producer + s.globals.current ≤ threadNums
  producer : .producer ∈ s.cond → others s.cond .producer < s.globals.current

theorem awake_initial (bufferMax threadNums : Nat) (dataNums : Int) :
    Awake (initial bufferMax threadNums dataNums) where
  waiting := fun u hu => absurd hu (Finset.notMem_empty u)
  consumers := Or.inl others_empty
  producer := fun hmem => absurd hmem (Finset.notMem_empty _)

theorem awake_step (hsize : threadNums < 2 * bufferMax) (hphases : Phases s) (hs : Awake s)
    (hstep : step s e = some t) : Awake t := by
  have hwaiting := waiting_step hphases hs.waiting hstep
  have hconsumers := hs.consumers
  have hproducer := hs.producer
  cases move_of_step hstep with
  | push buffer hpc hnums hlo hhi hsignal =>
      have hrunning : .producer ∉ s.cond := by
        intro hmem
        have hblocked := hs.waiting _ hmem
        rw [hpc] at hblocked
        cases hblocked
      rcases others_signal .producer hsignal with ⟨hmem, _⟩ | ⟨hmem, hothers, _⟩
      · exact absurd hmem hrunning
      · refine ⟨hwaiting, ?_, fun hmem' => absurd (hmem.mp hmem') hrunning⟩
        simp only
        omega
  | full hpc hnums hfull =>
      refine ⟨hwaiting, ?_, fun _ => ?_⟩ <;> simp only [others_insert_self] <;> omega
  | pop i hpc hend hlo hhi hsignal =>
      rcases others_signal .producer hsignal with ⟨hmem, hmem', hothers⟩ |
        ⟨hmem, hothers, hpos⟩
      · refine ⟨hwaiting, ?_, fun hmem'' => absurd hmem'' hmem'⟩
        simp only
        omega
      · refine ⟨hwaiting, ?_, fun hmem' => ?_⟩
        · simp only
          omega
        · have hlt := hproducer (hmem.mp hmem')
          have hone := hpos (hmem.mp hmem')
          simp only
          omega
  | empty i hpc hend hempty =>
      have hle := others_producer_le (insert (Thread.consumer i) s.cond)
      refine ⟨hwaiting, Or.inr ?_, fun hmem => ?_⟩
      · simp only
        omega
      · have hlt := hproducer (Finset.mem_of_mem_insert_of_ne hmem (by simp))
        omega
  | spurious u hcond =>
      have hle := others_mono .producer (Finset.erase_subset u s.cond)
      refine ⟨hwaiting, ?_, fun hmem => ?_⟩
      · simp only
        omega
      · have hlt := hproducer (Finset.mem_of_mem_erase hmem)
        simp only
        omega
  | setEnd =>
      exact ⟨hwaiting, Or.inl others_empty, fun hmem => absurd hmem (Finset.notMem_empty _)⟩
  | _ => exact ⟨hwaiting, hconsumers, hproducer⟩

theorem awake_of_reachable (hsize : threadNums < 2 * bufferMax) {dataNums : Int}
    (hreach : Reachable step (initial bufferMax threadNums dataNums) s) : Awake s := by
  have hkeep : ∀ (s : State bufferMax threadNums) e t, Phases s ∧ Awake s → step s e = some t →
      Phases t ∧ Awake t := by
    rintro s e t ⟨hphases, hawake⟩ hstep
    exact ⟨phases_step hphases hstep, awake_step hsize hphases hawake hstep⟩
  exact (hreach.invariant hkeep ⟨phases_initial bufferMax threadNums dataNums,
    awake_initial bufferMax threadNums dataNums⟩).2

/-- Nobody is left to signal `c_cond`, with items still to produce and `end` not set. -/
def AllAsleep (s : State bufferMax threadNums) : Prop :=
  s.globals.endFlag = false ∧ 0 < s.nums ∧ .producer ∈ s.cond ∧ ∀ i, .consumer i ∈ s.cond

/-- With fewer consumers than twice the cells of the buffer, producer and consumers are never all
asleep at once. -/
theorem not_allAsleep_of_reachable (hpos : 1 ≤ threadNums) (hsize : threadNums < 2 * bufferMax)
    {dataNums : Int} {s : State bufferMax threadNums}
    (hreach : Reachable step (initial bufferMax threadNums dataNums) s) : ¬ AllAsleep s := by
  rintro ⟨_, _, hproducer, hconsumers⟩
  have hawake := awake_of_reachable hsize hreach
  have hothers := others_producer_eq hconsumers
  have hlt := hawake.producer hproducer
  have hle := hawake.consumers
  omega

theorem not_allAsleep_shipped :
    ∃ s, exec step (initial 3 4 20000)
        (List.replicate 6 .main ++ List.replicate 4 (.critical .producer none)) = some s ∧
      .producer ∈ s.cond ∧ ¬ AllAsleep s := by
  have hrun : ((exec step (initial 3 4 20000)
      (List.replicate 6 .main ++ List.replicate 4 (.critical .producer none))).map
        fun s => decide (.producer ∈ s.cond)) = some true := by decide
  obtain ⟨s, hs, hproducer⟩ := Option.map_eq_some_iff.mp hrun
  exact ⟨s, hs, of_decide_eq_true hproducer,
    not_allAsleep_of_reachable (by decide) (by decide) ⟨_, hs⟩⟩

end CodeSlices.ProducerConsumer
