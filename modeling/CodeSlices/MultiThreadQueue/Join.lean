import Mathlib.Algebra.BigOperators.Fin
import Mathlib.Algebra.Order.BigOperators.Group.Finset
import CodeSlices.MultiThreadQueue.Barrier

/-!
# Whether `main` can join its threads

As long as no consumer is stranded some schedule brings every thread to its end, and `main` with
them; a stranded consumer is never joined.
-/

namespace CodeSlices.MultiThreadQueue.Program

open CodeSlices.Transition

variable {threadNums : Nat} {setup : Setup threadNums} {s t : State threadNums}
  {e : Event threadNums}

theorem sum_comp_update (f : ConsumerPc → Nat) (consumer : Fin threadNums → ConsumerPc)
    (i : Fin threadNums) (pc : ConsumerPc) :
    ∑ j, f (Function.update consumer i pc j) + f (consumer i) = ∑ j, f (consumer j) + f pc := by
  have hrest : ∑ j ∈ Finset.univ.erase i, f (Function.update consumer i pc j) =
      ∑ j ∈ Finset.univ.erase i, f (consumer j) := by
    refine Finset.sum_congr rfl fun j hj => ?_
    rw [Function.update_of_ne (Finset.ne_of_mem_erase hj)]
  rw [← Finset.add_sum_erase _ _ (Finset.mem_univ i), hrest, Function.update_self,
    ← Finset.add_sum_erase _ (fun j => f (consumer j)) (Finset.mem_univ i)]
  omega

/-- What the consumer has added to `g_thread_count`. -/
def ConsumerPc.counted : ConsumerPc → Nat
  | .unborn => 0
  | .count => 0
  | _ => 1

/-- Who owns `g_lock`, what `g_thread_count` counts, and what the memory of the queue holds. -/
structure Resources (setup : Setup threadNums) (slot : Addr → Addr) (s : State threadNums) :
    Prop where
  lock : ∀ i, s.gLock = some i ↔ s.consumer i = .wait
  counted : s.gThreadCount = ∑ i, (s.consumer i).counted
  running : s.main ≠ .createProvider → s.provider ≠ .unborn
  start : s.main = .createProvider ∨ s.main = .init → s.mem = startMemory setup.gQueue slot
  holds : s.main ≠ .createProvider → s.main ≠ .init → ∃ blocks, Holds s.mem setup.gQueue blocks

theorem resources_initial (slot : Addr → Addr) : Resources setup slot (initial setup slot) where
  lock := fun _ => iff_of_false nofun nofun
  counted := by simp [initial, ConsumerPc.counted]
  running := fun hne => absurd rfl hne
  start := fun _ => rfl
  holds := fun hne => absurd rfl hne

theorem lock_update {gLock : Option (Fin threadNums)} {consumer : Fin threadNums → ConsumerPc}
    (hlock : ∀ j, gLock = some j ↔ consumer j = .wait) {i : Fin threadNums} {pc : ConsumerPc}
    (hold : consumer i ≠ .wait) (hnew : pc ≠ .wait) (j : Fin threadNums) :
    gLock = some j ↔ Function.update consumer i pc j = .wait := by
  by_cases heq : j = i
  · rw [hlock, heq, Function.update_self]
    exact iff_of_false hold hnew
  · rw [hlock, Function.update_of_ne heq]

theorem counted_update {n : Nat} {consumer : Fin threadNums → ConsumerPc}
    (hcounted : n = ∑ i, (consumer i).counted) {i : Fin threadNums} {pc : ConsumerPc}
    (hpc : pc.counted = (consumer i).counted) :
    n = ∑ j, (Function.update consumer i pc j).counted := by
  have hsum := sum_comp_update ConsumerPc.counted consumer i pc
  omega

theorem resources_consumer_step {slot : Addr → Addr} (hphases : Phases s)
    (hs : Resources setup slot s) {i : Fin threadNums}
    (hstep : step setup s (.consumer i) = some t) : Resources setup slot t := by
  cases move_of_step hstep with
  | count _ hpc =>
      refine ⟨lock_update hs.lock (by simp [hpc]) (by decide), ?_, hs.running, hs.start, hs.holds⟩
      have hsum := sum_comp_update ConsumerPc.counted s.consumer i .lock
      rw [hpc, ← hs.counted] at hsum
      exact hsum.symm
  | lock _ hpc hlock =>
      refine ⟨fun j => ?_, counted_update hs.counted (by rw [hpc]; rfl), hs.running, hs.start,
        hs.holds⟩
      change some i = some j ↔ Function.update s.consumer i .wait j = .wait
      by_cases heq : j = i
      · rw [heq, Function.update_self]
        exact iff_of_true rfl rfl
      · rw [Function.update_of_ne heq, ← hs.lock j, hlock]
        exact iff_of_false (fun h => heq (Option.some.inj h).symm) nofun
  | wait _ hpc =>
      refine ⟨fun j => ?_, counted_update hs.counted (by rw [hpc]; rfl), hs.running, hs.start,
        hs.holds⟩
      change none = some j ↔ Function.update s.consumer i .blocked j = .wait
      refine iff_of_false nofun fun hj => ?_
      by_cases heq : j = i
      · rw [heq, Function.update_self] at hj
        cases hj
      · rw [Function.update_of_ne heq, ← hs.lock j, (hs.lock i).mpr hpc] at hj
        exact heq (Option.some.inj hj).symm
  | resume _ hpc =>
      exact ⟨lock_update hs.lock (by simp [hpc]) (by decide),
        counted_update hs.counted (by rw [hpc]; rfl), hs.running, hs.start, hs.holds⟩
  | dequeue _ ret mem hpc hdequeue =>
      have hcreated : s.main ≠ .createProvider ∧ s.main ≠ .init := by
        constructor <;> intro hmain
        · have hunborn := (hphases.unborn i).mpr (by simp [hmain, MainPc.created])
          simp [hpc] at hunborn
        · have hunborn := (hphases.unborn i).mpr (by simp [hmain, MainPc.created])
          simp [hpc] at hunborn
      obtain ⟨blocks, hholds⟩ := hs.holds hcreated.1 hcreated.2
      refine ⟨lock_update hs.lock (by simp [hpc]) ?_, counted_update hs.counted ?_, hs.running,
        fun hmain => ?_, fun _ _ => holds_of_qDequeue hholds hdequeue⟩
      · cases ret <;> decide
      · rw [hpc]
        cases ret <;> rfl
      · exact absurd hmain (not_or.mpr hcreated)

theorem wake_counted (pc : ConsumerPc) : pc.wake.counted = pc.counted := by
  cases pc <;> rfl

theorem wake_eq_wait_iff (pc : ConsumerPc) : pc.wake = .wait ↔ pc = .wait := by
  cases pc <;> decide

theorem resources_provider_step {slot : Addr → Addr} (hs : Resources setup slot s)
    (hstep : step setup s .provider = some t) : Resources setup slot t := by
  cases move_of_step hstep with
  | poll hprovider =>
      refine ⟨hs.lock, hs.counted, fun _ => ?_, hs.start, hs.holds⟩
      change (if s.gThreadCount < threadNums then ProviderPc.poll else .broadcast) ≠ .unborn
      split <;> decide
  | broadcast hprovider hlock =>
      refine ⟨fun j => (hs.lock j).trans (wake_eq_wait_iff _).symm, ?_, fun _ => nofun, hs.start,
        hs.holds⟩
      rw [hs.counted]
      exact Finset.sum_congr rfl fun j _ => (wake_counted _).symm

theorem Resources.advance {slot : Addr → Addr} (hs : Resources setup slot s) {mem : Memory}
    {main : MainPc} (hold : s.main ≠ .createProvider) (hcreate : main ≠ .createProvider)
    (hinit : main ≠ .init) (hholds : ∃ blocks, Holds mem setup.gQueue blocks) :
    Resources setup slot { s with mem := mem, main := main } :=
  ⟨hs.lock, hs.counted, fun _ => hs.running hold,
    fun hmain => absurd hmain (not_or.mpr ⟨hcreate, hinit⟩), fun _ _ => hholds⟩

theorem resources_main_step {slot : Addr → Addr} (hphases : Phases s) (hs : Resources setup slot s)
    {block : Option Addr} (hstep : step setup s (.main block) = some t) :
    Resources setup slot t := by
  cases move_of_step hstep with
  | createProvider _ hmain =>
      refine ⟨hs.lock, hs.counted, ?_, fun _ => hs.start (Or.inl hmain), ?_⟩
      · simp
      · simp
  | init _ mem hmain hinit =>
      rw [hs.start (Or.inr hmain), qInit_startMemory setup.gQueue_ne_null] at hinit
      obtain rfl := Except.ok.inj hinit
      apply hs.advance
      · simp [hmain]
      · simp
      · simp
      · exact ⟨[], (inv_initial setup.gQueue_ne_null slot).holds⟩
  | enqueue _ i ret mem hmain hlt hfresh henqueue =>
      obtain ⟨blocks, hholds⟩ := hs.holds (by simp [hmain]) (by simp [hmain])
      apply hs.advance
      · simp [hmain]
      · simp
      · simp
      · exact holds_of_qEnqueue hholds hfresh henqueue
  | createConsumer _ i hmain =>
      have hunborn : s.consumer i = .unborn :=
        (hphases.unborn i).mpr (by simp [hmain, MainPc.created])
      have hholds := hs.holds (by simp [hmain]) (by simp [hmain])
      refine ⟨lock_update hs.lock (by simp [hunborn]) (by decide),
        counted_update hs.counted (by rw [hunborn]; rfl), ?_, ?_, fun _ _ => hholds⟩
      · exact fun _ => hs.running (by simp [hmain])
      · simp
  | clean _ ret mem hmain hdequeue =>
      obtain ⟨blocks, hholds⟩ := hs.holds (by simp [hmain]) (by simp [hmain])
      apply hs.advance
      · simp [hmain]
      · cases ret <;> simp
      · cases ret <;> simp
      · exact holds_of_qDequeue hholds hdequeue
  | _ =>
      apply hs.advance
      · simp [*]
      · simp
      · simp
      · exact hs.holds (by simp [*]) (by simp [*])

theorem resources_step {slot : Addr → Addr} (hphases : Phases s) (hs : Resources setup slot s)
    (hstep : step setup s e = some t) : Resources setup slot t := by
  cases e with
  | main block => exact resources_main_step hphases hs hstep
  | provider => exact resources_provider_step hs hstep
  | consumer i => exact resources_consumer_step hphases hs hstep

/-! ### A schedule that comes to its end -/

def ConsumerPc.rank : ConsumerPc → Nat
  | .unborn => 7
  | .count => 6
  | .lock => 5
  | .wait => 4
  | .blocked => 3
  | .woken => 2
  | .loop => 1
  | .exited => 0

def ProviderPc.rank : ProviderPc → Nat
  | .unborn => 3
  | .poll => 2
  | .broadcast => 1
  | .exited => 0

def MainPc.rank (nodeNums threadNums : Nat) : MainPc → Nat
  | .createProvider => nodeNums + 2 * threadNums + 7
  | .init => nodeNums + 2 * threadNums + 6
  | .enqueue i => nodeNums - i + 2 * threadNums + 5
  | .createConsumer i => threadNums - i + threadNums + 4
  | .joinProvider => threadNums + 3
  | .joinConsumer i => threadNums - i + 2
  | .clean => 1
  | .returned => 0

def remaining (setup : Setup threadNums) (s : State threadNums) : Nat :=
  s.main.rank setup.nodeNums threadNums + s.provider.rank + ∑ i, (s.consumer i).rank +
    s.mem.live.card

def MainPc.Created : MainPc → Prop
  | .joinProvider => True
  | .joinConsumer _ => True
  | .clean => True
  | .returned => True
  | _ => False

theorem created_of_created {main : MainPc} (hcreated : main.Created) :
    main.created threadNums = threadNums := by
  cases main with
  | joinProvider => rfl
  | joinConsumer i => rfl
  | clean => rfl
  | returned => rfl
  | _ => exact hcreated.elim

theorem rank_update_lt (consumer : Fin threadNums → ConsumerPc) (i : Fin threadNums)
    (pc : ConsumerPc) (hpc : pc.rank < (consumer i).rank) :
    ∑ j, (Function.update consumer i pc j).rank < ∑ j, (consumer j).rank := by
  have hsum := sum_comp_update ConsumerPc.rank consumer i pc
  omega

theorem exists_step_of_creating {slot : Addr → Addr} (hphases : Phases s)
    (hs : Resources setup slot s) (hcreating : ¬ s.main.Created) :
    ∃ t, step setup s (.main none) = some t ∧ remaining setup t < remaining setup s := by
  cases hmain : s.main with
  | createProvider =>
      simp only [step, mainThread, hmain]
      refine ⟨_, rfl, ?_⟩
      simp only [remaining, hmain, hphases.provider hmain, MainPc.rank, ProviderPc.rank]
      omega
  | init =>
      have hinit := qInit_startMemory setup.gQueue_ne_null slot
      rw [← hs.start (Or.inr hmain)] at hinit
      simp only [step, mainThread, hmain, hinit]
      refine ⟨_, rfl, ?_⟩
      have hlive : (MultiThreadQueue.initial setup.gQueue slot).mem.live = s.mem.live := by
        rw [hs.start (Or.inr hmain)]
        rfl
      simp only [remaining, hmain, hlive, MainPc.rank]
      omega
  | enqueue i =>
      by_cases hlt : i < setup.nodeNums
      · have hfresh : s.mem.Fresh none := trivial
        simp only [step, mainThread, hmain, if_pos hlt, if_pos hfresh, qEnqueue_none]
        refine ⟨_, rfl, ?_⟩
        simp only [remaining, hmain, MainPc.rank]
        omega
      · simp only [step, mainThread, hmain, if_neg hlt]
        refine ⟨_, rfl, ?_⟩
        simp only [remaining, hmain, MainPc.rank]
        omega
  | createConsumer i =>
      by_cases hlt : i < threadNums
      · simp only [step, mainThread, hmain, dif_pos hlt]
        refine ⟨_, rfl, ?_⟩
        have hunborn : s.consumer ⟨i, hlt⟩ = .unborn :=
          (hphases.unborn ⟨i, hlt⟩).mpr (by simp [hmain, MainPc.created])
        have hrank := rank_update_lt s.consumer ⟨i, hlt⟩ .count (by rw [hunborn]; decide)
        simp only [remaining, hmain, MainPc.rank]
        omega
      · simp only [step, mainThread, hmain, dif_neg hlt]
        refine ⟨_, rfl, ?_⟩
        simp only [remaining, hmain, MainPc.rank]
        omega
  | _ => exact absurd (hmain ▸ trivial) hcreating

theorem holds_of_created {slot : Addr → Addr} (hs : Resources setup slot s)
    (hcreated : s.main.Created) : ∃ blocks, Holds s.mem setup.gQueue blocks := by
  refine hs.holds (fun hmain => ?_) (fun hmain => ?_)
  · rwa [hmain] at hcreated
  · rwa [hmain] at hcreated

theorem exists_step_of_running {slot : Addr → Addr} (hs : Resources setup slot s)
    (hcreated : s.main.Created) {i : Fin threadNums} (hborn : s.consumer i ≠ .unborn)
    (hblocked : s.consumer i ≠ .blocked) (hexited : s.consumer i ≠ .exited) :
    ∃ j t, step setup s (.consumer j) = some t ∧ remaining setup t < remaining setup s := by
  cases hlock : s.gLock with
  | some j =>
      have hwait : s.consumer j = .wait := (hs.lock j).mp hlock
      have hrank := rank_update_lt s.consumer j .blocked (by rw [hwait]; decide)
      refine ⟨j, ?_⟩
      simp only [step, consumerThread, hwait]
      refine ⟨_, rfl, ?_⟩
      simp only [remaining]
      omega
  | none =>
      refine ⟨i, ?_⟩
      cases hpc : s.consumer i with
      | count =>
          have hrank := rank_update_lt s.consumer i .lock (by rw [hpc]; decide)
          simp only [step, consumerThread, hpc]
          refine ⟨_, rfl, ?_⟩
          simp only [remaining]
          omega
      | lock =>
          have hrank := rank_update_lt s.consumer i .wait (by rw [hpc]; decide)
          simp only [step, consumerThread, hpc, if_pos hlock]
          refine ⟨_, rfl, ?_⟩
          simp only [remaining]
          omega
      | wait =>
          have howner := (hs.lock i).mpr hpc
          rw [hlock] at howner
          cases howner
      | woken =>
          have hrank := rank_update_lt s.consumer i .loop (by rw [hpc]; decide)
          simp only [step, consumerThread, hpc, if_pos hlock]
          refine ⟨_, rfl, ?_⟩
          simp only [remaining]
          omega
      | loop =>
          obtain ⟨blocks, hholds⟩ := holds_of_created hs hcreated
          obtain ⟨ret, mem, hdequeue, _, _, hret⟩ := qDequeue_eq hholds (setup.value i)
          simp only [step, consumerThread, hpc, hdequeue]
          refine ⟨_, rfl, ?_⟩
          cases ret with
          | true =>
              have hsame : Function.update s.consumer i .loop = s.consumer :=
                Function.update_eq_self_iff.mpr hpc.symm
              have hcard : mem.live.card < s.mem.live.card := hret
              simp only [remaining, if_true, hsame]
              omega
          | false =>
              have hrank := rank_update_lt s.consumer i .exited (by rw [hpc]; decide)
              have hmem : mem = s.mem := hret
              simp only [remaining, Bool.false_eq_true, if_false, hmem]
              omega
      | _ => contradiction

theorem sum_rank_wake_le (consumer : Fin threadNums → ConsumerPc) :
    ∑ i, (consumer i).wake.rank ≤ ∑ i, (consumer i).rank := by
  refine Finset.sum_le_sum fun i _ => ?_
  cases consumer i <;> decide

/-- Once every thread has ended it is `main`'s turn. -/
theorem exists_step_of_ended {slot : Addr → Addr} (hs : Resources setup slot s)
    (hcreated : s.main.Created) (hmain : s.main ≠ .returned) (hprovider : s.provider = .exited)
    (hexited : ∀ i, s.consumer i = .exited) :
    ∃ e t, step setup s e = some t ∧ AllBlocked s e ∧ remaining setup t < remaining setup s := by
  refine ⟨.main none, ?_⟩
  cases hpc : s.main with
  | joinProvider =>
      simp only [step, mainThread, hpc, if_pos hprovider]
      refine ⟨_, rfl, allBlocked_of_ne (by simp), ?_⟩
      simp only [remaining, hpc, MainPc.rank]
      omega
  | joinConsumer i =>
      by_cases hlt : i < threadNums
      · simp only [step, mainThread, hpc, dif_pos hlt, if_pos (hexited ⟨i, hlt⟩)]
        refine ⟨_, rfl, allBlocked_of_ne (by simp), ?_⟩
        simp only [remaining, hpc, MainPc.rank]
        omega
      · simp only [step, mainThread, hpc, dif_neg hlt]
        refine ⟨_, rfl, allBlocked_of_ne (by simp), ?_⟩
        simp only [remaining, hpc, MainPc.rank]
        omega
  | clean =>
      obtain ⟨blocks, hholds⟩ := holds_of_created hs hcreated
      obtain ⟨ret, mem, hdequeue, _, _, hret⟩ := qDequeue_eq hholds NULL
      simp only [step, mainThread, hpc, hdequeue]
      refine ⟨_, rfl, allBlocked_of_ne (by simp), ?_⟩
      cases ret with
      | true =>
          have hcard : mem.live.card < s.mem.live.card := hret
          simp only [remaining, hpc, if_true]
          omega
      | false =>
          have hmem : mem = s.mem := hret
          simp only [remaining, hpc, Bool.false_eq_true, if_false, hmem, MainPc.rank]
          omega
  | returned => exact absurd hpc hmain
  | _ => exact absurd hcreated (by rw [hpc]; exact id)

/-- Once every consumer is blocked or has ended it is the provider's turn, or `main`'s. -/
theorem exists_step_of_idle {slot : Addr → Addr} (hphases : Phases s)
    (hs : Resources setup slot s) (hgood : NoneStranded s) (hcreated : s.main.Created)
    (hmain : s.main ≠ .returned)
    (hidle : ∀ i, s.consumer i = .blocked ∨ s.consumer i = .exited) :
    ∃ e t, step setup s e = some t ∧ AllBlocked s e ∧ remaining setup t < remaining setup s := by
  cases hprovider : s.provider with
  | unborn =>
      refine absurd hprovider (hs.running fun hcreate => ?_)
      rwa [hcreate] at hcreated
  | poll =>
      have hcount : ¬ s.gThreadCount < threadNums := by
        have hone : ∀ i ∈ Finset.univ, (s.consumer i).counted = 1 := by
          intro i _
          rcases hidle i with hpc | hpc <;> rw [hpc] <;> rfl
        rw [hs.counted, Finset.sum_congr rfl hone]
        simp
      refine ⟨.provider, ?_⟩
      simp only [step, providerThread, hprovider, if_neg hcount]
      refine ⟨_, rfl, by simp [AllBlocked, hprovider], ?_⟩
      simp only [remaining, hprovider, ProviderPc.rank]
      omega
  | broadcast =>
      have hlock : s.gLock = none := by
        cases howner : s.gLock with
        | none => rfl
        | some i =>
            have hwait := (hs.lock i).mp howner
            rcases hidle i with hpc | hpc <;> rw [hpc] at hwait <;> cases hwait
      have hblocked : ∀ i, s.consumer i = .blocked := by
        intro i
        refine (hidle i).resolve_right fun hpc => ?_
        exact hphases.released (by simp [hprovider]) i (hpc ▸ trivial)
      have hrank := sum_rank_wake_le s.consumer
      refine ⟨.provider, ?_⟩
      simp only [step, providerThread, hprovider, if_pos hlock]
      refine ⟨_, rfl, fun _ _ => hblocked, ?_⟩
      simp only [remaining, hprovider, ProviderPc.rank]
      omega
  | exited =>
      have hexited : ∀ i, s.consumer i = .exited := by
        intro i
        refine (hidle i).resolve_left fun hpc => ?_
        have hreleased := hgood hprovider i
        rwa [hpc] at hreleased
      exact exists_step_of_ended hs hcreated hmain hprovider hexited

theorem exists_step_lt {slot : Addr → Addr} (hphases : Phases s) (hs : Resources setup slot s)
    (hgood : NoneStranded s) (hmain : s.main ≠ .returned) :
    ∃ e t, step setup s e = some t ∧ AllBlocked s e ∧ remaining setup t < remaining setup s := by
  by_cases hcreated : s.main.Created
  · by_cases hidle : ∀ i, s.consumer i = .blocked ∨ s.consumer i = .exited
    · exact exists_step_of_idle hphases hs hgood hcreated hmain hidle
    · obtain ⟨i, hi⟩ := not_forall.mp hidle
      obtain ⟨hblocked, hexited⟩ := not_or.mp hi
      have hborn : s.consumer i ≠ .unborn := by
        rw [ne_eq, hphases.unborn, created_of_created hcreated]
        omega
      obtain ⟨j, t, hstep, hlt⟩ := exists_step_of_running hs hcreated hborn hblocked hexited
      exact ⟨.consumer j, t, hstep, allBlocked_of_ne (by simp), hlt⟩
  · obtain ⟨t, hstep, hlt⟩ := exists_step_of_creating hphases hs hcreated
    exact ⟨.main none, t, hstep, allBlocked_of_ne (by simp), hlt⟩

theorem noneStranded_of_returned (hphases : Phases s) (hmain : s.main = .returned) :
    NoneStranded s := by
  intro _ i
  have hexited := hphases.exited i (by simp [hmain, MainPc.joined])
  exact hexited ▸ trivial

section Runs

variable {slot : Addr → Addr} {es : List (Event threadNums)}

theorem phases_resources_of_exec (hrun : exec (step setup) (initial setup slot) es = some s) :
    Phases s ∧ Resources setup slot s := by
  have hstep : ∀ u e t, Phases u ∧ Resources setup slot u → step setup u e = some t →
      Phases t ∧ Resources setup slot t := fun _ _ _ hu hstep =>
    ⟨phases_step hu.1 hstep, resources_step hu.1 hu.2 hstep⟩
  exact exec_invariant hstep ⟨phases_initial slot, resources_initial slot⟩ hrun

theorem noneStranded_iff_guarded (hrun : exec (step setup) (initial setup slot) es = some s) :
    NoneStranded s ↔ Guarded (step setup) AllBlocked (initial setup slot) es := by
  have hinit : NoneStranded (initial setup slot) := nofun
  have hgood := good_iff_guarded (fun _ _ _ => phases_step) (fun _ _ _ => noneStranded_step)
    (phases_initial slot) hrun
  exact hgood.trans (and_iff_right hinit)

/-- `main` can still come to its end exactly when no consumer is stranded. -/
theorem canReturn_iff_noneStranded
    (hrun : exec (step setup) (initial setup slot) es = some s) :
    (∃ fs t, exec (step setup) s fs = some t ∧ t.main = .returned) ↔ NoneStranded s := by
  have hs := phases_resources_of_exec hrun
  constructor
  · rintro ⟨fs, t, hrest, hmain⟩
    have hphases : Phases t := exec_invariant (fun _ _ _ => phases_step) hs.1 hrest
    have hgood := good_iff_guarded (fun _ _ _ => phases_step) (fun _ _ _ => noneStranded_step)
      hs.1 hrest
    exact (hgood.mp (noneStranded_of_returned hphases hmain)).1
  · intro hgood
    have hprogress : ∀ u, Phases u ∧ Resources setup slot u ∧ NoneStranded u →
        ¬ u.main = .returned → ∃ e t, step setup u e = some t ∧
          (Phases t ∧ Resources setup slot t ∧ NoneStranded t) ∧
            remaining setup t < remaining setup u := by
      rintro u ⟨hphases, hresources, hgood⟩ hmain
      obtain ⟨e, t, hstep, hguard, hlt⟩ := exists_step_lt hphases hresources hgood hmain
      exact ⟨e, t, hstep, ⟨phases_step hphases hstep, resources_step hphases hresources hstep,
        (noneStranded_step hphases hstep).mpr ⟨hgood, hguard⟩⟩, hlt⟩
    exact exists_exec_of_measure (remaining setup) hprogress ⟨hs.1, hs.2, hgood⟩

/-- In every run no consumer is stranded, and `main` can still join its threads and return, exactly
when the broadcast was taken with every consumer in the wait set of `g_cond`. -/
theorem barrier_iff_allBlocked (hrun : exec (step setup) (initial setup slot) es = some s) :
    (NoneStranded s ↔ Guarded (step setup) AllBlocked (initial setup slot) es) ∧
    ((∃ fs t, exec (step setup) s fs = some t ∧ t.main = .returned) ↔
      Guarded (step setup) AllBlocked (initial setup slot) es) :=
  ⟨noneStranded_iff_guarded hrun,
    (canReturn_iff_noneStranded hrun).trans (noneStranded_iff_guarded hrun)⟩

end Runs

def oneThread : Setup 1 where
  gQueue := 1
  gQueue_ne_null := by decide
  nodeNums := 0
  value := fun _ => 9

/-- The provider tests the counter and broadcasts before the consumer takes `g_lock`. -/
def earlyBroadcast : List (Event 1) :=
  [.main none, .main none, .main none, .main none, .consumer 0, .provider, .provider, .consumer 0,
    .consumer 0]

theorem earlyBroadcast_stranded :
    ∃ s, exec (step oneThread) (initial oneThread fun _ => 0) earlyBroadcast = some s ∧
      s.provider = .exited ∧ s.consumer 0 = .blocked ∧ ¬ NoneStranded s ∧
        ¬ ∃ fs t, exec (step oneThread) s fs = some t ∧ t.main = .returned := by
  have hrun : ((exec (step oneThread) (initial oneThread fun _ => 0) earlyBroadcast).map
      fun s => (s.provider, s.consumer 0)) = some (.exited, .blocked) := by decide
  obtain ⟨s, hs, hfinal⟩ := Option.map_eq_some_iff.mp hrun
  obtain ⟨hprovider, hconsumer⟩ := Prod.mk.inj hfinal
  have hstranded : ¬ NoneStranded s := by
    intro hgood
    have hreleased := hgood hprovider 0
    rwa [hconsumer] at hreleased
  exact ⟨s, hs, hprovider, hconsumer, hstranded,
    fun h => hstranded ((canReturn_iff_noneStranded hs).mp h)⟩

/-- The consumer is in the wait set when the provider broadcasts. -/
def lateBroadcast : List (Event 1) :=
  [.main none, .main none, .main none, .main none, .consumer 0, .consumer 0, .consumer 0, .provider,
    .provider]

theorem lateBroadcast_noneStranded :
    ∃ s, exec (step oneThread) (initial oneThread fun _ => 0) lateBroadcast = some s ∧
      s.provider = .exited ∧ NoneStranded s ∧
        ∃ fs t, exec (step oneThread) s fs = some t ∧ t.main = .returned := by
  have hrun : ((exec (step oneThread) (initial oneThread fun _ => 0) lateBroadcast).map
      fun s => s.provider) = some .exited := by decide
  obtain ⟨s, hs, hprovider⟩ := Option.map_eq_some_iff.mp hrun
  have hguarded : Guarded (step oneThread) AllBlocked (initial oneThread fun _ => 0)
      lateBroadcast := by decide
  have hiff := barrier_iff_allBlocked hs
  exact ⟨s, hs, hprovider, hiff.1.mpr hguarded, hiff.2.mpr hguarded⟩

end CodeSlices.MultiThreadQueue.Program
