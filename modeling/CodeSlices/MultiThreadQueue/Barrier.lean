import CodeSlices.MultiThreadQueue.Program

/-!
# The start barrier

A consumer announces itself in `g_thread_count` before it waits on `g_cond`, so the provider can
broadcast while a consumer is still on its way there. That consumer is stranded: nobody broadcasts
again.
-/

namespace CodeSlices.MultiThreadQueue.Program

open CodeSlices.Transition

variable {threadNums : Nat} {setup : Setup threadNums} {s t : State threadNums}
  {e : Event threadNums}

/-- The consumer was woken by the broadcast. -/
def ConsumerPc.Released : ConsumerPc → Prop
  | .woken => True
  | .loop => True
  | .exited => True
  | _ => False

def MainPc.created (threadNums : Nat) : MainPc → Nat
  | .createProvider => 0
  | .init => 0
  | .enqueue _ => 0
  | .createConsumer i => i
  | _ => threadNums

def MainPc.joined (threadNums : Nat) : MainPc → Nat
  | .joinConsumer i => i
  | .clean => threadNums
  | .returned => threadNums
  | _ => 0

structure Phases (s : State threadNums) : Prop where
  released : s.provider ≠ .exited → ∀ i, ¬ (s.consumer i).Released
  unborn : ∀ i : Fin threadNums, s.consumer i = .unborn ↔ s.main.created threadNums ≤ i
  provider : s.main = .createProvider → s.provider = .unborn
  exited : ∀ i : Fin threadNums, i < s.main.joined threadNums → s.consumer i = .exited

theorem phases_initial (slot : Addr → Addr) : Phases (initial setup slot) :=
  ⟨fun _ _ => id, fun _ => iff_of_true rfl (Nat.zero_le _), fun _ => rfl, fun _ => nofun⟩

/-- A consumer's own step moves it, while it runs, to another place on the same side of the
barrier. -/
theorem consumer_of_step {i : Fin threadNums} (hstep : step setup s (.consumer i) = some t) :
    t.main = s.main ∧ t.provider = s.provider ∧ s.consumer i ≠ .unborn ∧ s.consumer i ≠ .exited ∧
      ∃ pc, t.consumer = Function.update s.consumer i pc ∧ pc ≠ .unborn ∧
        (pc.Released ↔ (s.consumer i).Released) := by
  cases move_of_step hstep with
  | count _ hpc => exact ⟨rfl, rfl, by simp [hpc], by simp [hpc], .lock, rfl, by decide,
      hpc ▸ Iff.rfl⟩
  | lock _ hpc => exact ⟨rfl, rfl, by simp [hpc], by simp [hpc], .wait, rfl, by decide,
      hpc ▸ Iff.rfl⟩
  | wait _ hpc => exact ⟨rfl, rfl, by simp [hpc], by simp [hpc], .blocked, rfl, by decide,
      hpc ▸ Iff.rfl⟩
  | resume _ hpc => exact ⟨rfl, rfl, by simp [hpc], by simp [hpc], .loop, rfl, by decide,
      hpc ▸ Iff.rfl⟩
  | dequeue _ ret mem hpc =>
      refine ⟨rfl, rfl, by simp [hpc], by simp [hpc], _, rfl, ?_, ?_⟩
      · cases ret <;> decide
      · rw [hpc]
        cases ret <;> exact Iff.rfl

theorem released_iff_of_consumer_step {i : Fin threadNums}
    (hstep : step setup s (.consumer i) = some t) (j : Fin threadNums) :
    (t.consumer j).Released ↔ (s.consumer j).Released := by
  obtain ⟨_, _, _, _, pc, hconsumer, _, hpc⟩ := consumer_of_step hstep
  rw [hconsumer]
  by_cases heq : j = i
  · subst heq
    rw [Function.update_self, hpc]
  · rw [Function.update_of_ne heq]

theorem phases_consumer_step (hs : Phases s) {i : Fin threadNums}
    (hstep : step setup s (.consumer i) = some t) : Phases t := by
  have hiff := released_iff_of_consumer_step hstep
  obtain ⟨hmain, hprovider, hborn, hrun, pc, hconsumer, hpc, _⟩ := consumer_of_step hstep
  refine ⟨fun hne j hj => ?_, fun j => ?_, fun hcreate => ?_, fun j hj => ?_⟩
  · exact hs.released (hprovider ▸ hne) j ((hiff j).mp hj)
  · rw [hmain, ← hs.unborn j, hconsumer]
    by_cases heq : j = i
    · rw [heq, Function.update_self]
      exact iff_of_false hpc hborn
    · rw [Function.update_of_ne heq]
  · rw [hprovider, hs.provider (hmain ▸ hcreate)]
  · have hexited := hs.exited j (hmain ▸ hj)
    have hne : j ≠ i := fun heq => hrun (heq ▸ hexited)
    rw [hconsumer, Function.update_of_ne hne, hexited]

theorem phases_provider_step (hs : Phases s) (hstep : step setup s .provider = some t) :
    Phases t := by
  cases move_of_step hstep with
  | poll hprovider =>
      refine ⟨fun _ => hs.released (by simp [hprovider]), hs.unborn, fun hcreate => ?_, hs.exited⟩
      have hunborn := hs.provider hcreate
      rw [hprovider] at hunborn
      cases hunborn
  | broadcast hprovider hlock =>
      refine ⟨fun hne => absurd rfl hne, fun j => ?_, fun hcreate => ?_, fun j hj => ?_⟩
      · refine Iff.trans ?_ (hs.unborn j)
        change (s.consumer j).wake = .unborn ↔ s.consumer j = .unborn
        cases s.consumer j <;> decide
      · have hunborn := hs.provider hcreate
        rw [hprovider] at hunborn
        cases hunborn
      · change (s.consumer j).wake = .exited
        rw [hs.exited j hj, ConsumerPc.wake]
        nofun

theorem Phases.advance (hs : Phases s) (mem : Memory) {main : MainPc}
    (hcreated : ∀ i : Fin threadNums,
      s.main.created threadNums ≤ i ↔ main.created threadNums ≤ i)
    (hmain : main ≠ .createProvider)
    (hexited : ∀ i : Fin threadNums, i < main.joined threadNums → s.consumer i = .exited) :
    Phases { s with mem := mem, main := main } :=
  ⟨hs.released, fun i => (hs.unborn i).trans (hcreated i), fun hcreate => absurd hcreate hmain,
    hexited⟩

theorem phases_main_step (hs : Phases s) {block : Option Addr}
    (hstep : step setup s (.main block) = some t) : Phases t := by
  cases move_of_step hstep with
  | createProvider _ hmain =>
      have hprovider := hs.provider hmain
      refine ⟨fun _ => hs.released (by simp [hprovider]), fun i => (hs.unborn i).trans ?_, ?_, ?_⟩
      · simp [hmain, MainPc.created]
      · simp
      · simp [MainPc.joined]
  | createConsumer _ i hmain =>
      refine ⟨fun hne j hj => ?_, fun j => ?_, by simp, by simp [MainPc.joined]⟩
      · change (Function.update s.consumer i .count j).Released at hj
        by_cases heq : j = i
        · rw [heq, Function.update_self] at hj
          exact hj
        · rw [Function.update_of_ne heq] at hj
          exact hs.released hne j hj
      · change Function.update s.consumer i .count j = .unborn ↔ i.val + 1 ≤ j.val
        by_cases heq : j = i
        · rw [heq, Function.update_self]
          exact iff_of_false (by decide) (by omega)
        · have hne : j.val ≠ i.val := fun h => heq (Fin.ext h)
          rw [Function.update_of_ne heq, hs.unborn j, hmain, MainPc.created]
          omega
  | init _ mem hmain =>
      apply hs.advance <;> simp [hmain, MainPc.created, MainPc.joined]
  | enqueue _ i ret mem hmain =>
      apply hs.advance <;> simp [hmain, MainPc.created, MainPc.joined]
  | enqueued _ i hmain =>
      apply hs.advance <;> simp [hmain, MainPc.created, MainPc.joined]
  | consumersCreated _ i hmain hdone =>
      apply hs.advance
      · intro j
        simp only [hmain, MainPc.created]
        omega
      · simp
      · simp [MainPc.joined]
  | joinProvider _ hmain hprovider =>
      apply hs.advance <;> simp [hmain, MainPc.created, MainPc.joined]
  | joinConsumer _ i hmain hexited =>
      apply hs.advance
      · simp [hmain, MainPc.created]
      · simp
      · intro j hj
        have hlt : j.val < i.val + 1 := hj
        rcases Nat.lt_succ_iff_lt_or_eq.mp hlt with hlt | heq
        · exact hs.exited j (by rwa [hmain, MainPc.joined])
        · exact Fin.ext heq ▸ hexited
  | consumersJoined _ i hmain hdone =>
      apply hs.advance
      · simp [hmain, MainPc.created]
      · simp
      · intro j _
        exact hs.exited j (by rw [hmain, MainPc.joined]; omega)
  | clean _ ret mem hmain =>
      have hexited : ∀ j, s.consumer j = .exited := by
        intro j
        exact hs.exited j (by simp [hmain, MainPc.joined])
      apply hs.advance
      · intro j
        cases ret <;> simp [hmain, MainPc.created]
      · cases ret <;> simp
      · exact fun j _ => hexited j

theorem phases_step (hs : Phases s) (hstep : step setup s e = some t) : Phases t := by
  cases e with
  | main block => exact phases_main_step hs hstep
  | provider => exact phases_provider_step hs hstep
  | consumer i => exact phases_consumer_step hs hstep

/-! ### Stranded consumers -/

/-- Once the provider is past its broadcast, no consumer is blocked in `pthread_cond_wait` or has
yet to enter it. -/
def NoneStranded (s : State threadNums) : Prop :=
  s.provider = .exited → ∀ i, (s.consumer i).Released

/-- A broadcast is taken only while every consumer is in the wait set of `g_cond`. -/
def AllBlocked (s : State threadNums) (e : Event threadNums) : Prop :=
  e = .provider → s.provider = .broadcast → ∀ i, s.consumer i = .blocked

instance (s : State threadNums) (e : Event threadNums) : Decidable (AllBlocked s e) := by
  unfold AllBlocked
  infer_instance

theorem allBlocked_of_ne (he : e ≠ .provider) : AllBlocked s e := fun heq => absurd heq he

theorem wake_released_iff {pc : ConsumerPc} (hpc : ¬ pc.Released) :
    pc.wake.Released ↔ pc = .blocked := by
  cases pc with
  | blocked => exact iff_of_true trivial rfl
  | woken => exact absurd trivial hpc
  | loop => exact absurd trivial hpc
  | exited => exact absurd trivial hpc
  | _ => exact iff_of_false id nofun

theorem noneStranded_step (hs : Phases s) (hstep : step setup s e = some t) :
    NoneStranded t ↔ NoneStranded s ∧ AllBlocked s e := by
  cases e with
  | consumer i =>
      obtain ⟨_, hprovider, _⟩ := consumer_of_step hstep
      have hiff := released_iff_of_consumer_step hstep
      have hguard : AllBlocked s (.consumer i) := allBlocked_of_ne (by simp)
      simp only [NoneStranded, hprovider, hiff, hguard, and_true]
  | provider =>
      cases move_of_step hstep with
      | poll hprovider =>
          have hguard : AllBlocked s .provider := by simp [AllBlocked, hprovider]
          have hs' : NoneStranded s := by simp [NoneStranded, hprovider]
          refine iff_of_true (fun hexited => ?_) ⟨hs', hguard⟩
          change (if s.gThreadCount < threadNums then ProviderPc.poll else .broadcast) = .exited
            at hexited
          split at hexited <;> cases hexited
      | broadcast hprovider hlock =>
          have hs' : NoneStranded s := by simp [NoneStranded, hprovider]
          have hnot := hs.released (by simp [hprovider])
          rw [and_iff_right hs']
          constructor
          · exact fun h _ _ i => (wake_released_iff (hnot i)).mp (h rfl i)
          · exact fun h _ i => (wake_released_iff (hnot i)).mpr (h rfl hprovider i)
  | main block =>
      have hguard : AllBlocked s (.main block) := allBlocked_of_ne (by simp)
      rw [and_iff_left hguard]
      cases move_of_step hstep with
      | createProvider _ hmain =>
          have hprovider := hs.provider hmain
          exact iff_of_true nofun (by simp [NoneStranded, hprovider])
      | createConsumer _ i hmain =>
          have hunborn : s.consumer i = .unborn :=
            (hs.unborn i).mpr (by simp [hmain, MainPc.created])
          refine imp_congr_right fun _ => ?_
          refine iff_of_false (fun h => ?_) (fun h => ?_)
          · have hi : (Function.update s.consumer i .count i).Released := h i
            rwa [Function.update_self] at hi
          · have hi := h i
            rwa [hunborn] at hi
      | _ => exact Iff.rfl

end CodeSlices.MultiThreadQueue.Program
