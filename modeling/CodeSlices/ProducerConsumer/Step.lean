import CodeSlices.ProducerConsumer.Model

/-!
# What one step of the producer and its consumers can do

`Move` lists the outcomes of a step with their guards; `move_of_step` is the only place where the
step function is taken apart. The branches that touch the counters are `push` and `pop`.
-/

namespace CodeSlices.ProducerConsumer

open CodeSlices.Transition CodeSlices.WaitSet

variable {bufferMax threadNums : Nat}

theorem Globals.load_of_mem {g : Globals bufferMax} {index : Int} (hlo : 0 ≤ index)
    (hhi : index < bufferMax) : ∃ value, g.load index = .ok value := by
  have hmem : 0 ≤ index ∧ index.toNat < bufferMax := ⟨hlo, by omega⟩
  exact ⟨_, dif_pos hmem⟩

theorem Globals.store_of_mem {g : Globals bufferMax} {index : Int} (value : Int) (hlo : 0 ≤ index)
    (hhi : index < bufferMax) :
    ∃ buffer, g.store index value = .ok { g with buffer := buffer } := by
  have hmem : 0 ≤ index ∧ index.toNat < bufferMax := ⟨hlo, by omega⟩
  exact ⟨_, dif_pos hmem⟩

theorem Globals.mem_of_load {g : Globals bufferMax} {index value : Int}
    (hload : g.load index = .ok value) : 0 ≤ index ∧ index < bufferMax := by
  by_cases hmem : 0 ≤ index ∧ index.toNat < bufferMax
  · exact ⟨hmem.1, by omega⟩
  · rw [load, dif_neg hmem] at hload
    cases hload

theorem Globals.mem_of_store {g g' : Globals bufferMax} {index value : Int}
    (hstore : g.store index value = .ok g') :
    0 ≤ index ∧ index < bufferMax ∧ ∃ buffer, g' = { g with buffer := buffer } := by
  by_cases hmem : 0 ≤ index ∧ index.toNat < bufferMax
  · rw [store, dif_pos hmem] at hstore
    exact ⟨hmem.1, by omega, _, (Except.ok.inj hstore).symm⟩
  · rw [store, dif_neg hmem] at hstore
    cases hstore

theorem consumerThread_cases {g g' : Globals bufferMax} {score score' : Int} {action : Action}
    (hsection : consumerThread g score = .ok (g', score', action)) :
    (g.endFlag = true ∧ (g', score', action) = (g, score, .leave)) ∨
      (g.endFlag = false ∧ g.current = 0 ∧ (g', score', action) = (g, score, .wait)) ∨
      (g.endFlag = false ∧ 0 < g.current ∧ g.current ≤ bufferMax ∧
        (g', score', action) = ({ g with current := g.current - 1 }, score + 1, .signal)) := by
  unfold consumerThread at hsection
  cases hend : g.endFlag with
  | true =>
      rw [hend, if_pos rfl] at hsection
      exact Or.inl ⟨rfl, (Except.ok.inj hsection).symm⟩
  | false =>
      rw [hend, if_neg Bool.false_ne_true] at hsection
      by_cases hempty : bufferIsEmpty g = true
      · rw [if_pos hempty] at hsection
        have hcurrent : g.current = 0 := by simpa [bufferIsEmpty] using hempty
        exact Or.inr (Or.inl ⟨rfl, hcurrent, (Except.ok.inj hsection).symm⟩)
      · rw [if_neg hempty] at hsection
        cases hload : g.load (g.current - 1) with
        | error fault =>
            rw [hload] at hsection
            cases hsection
        | ok value =>
            rw [hload] at hsection
            have hmem := Globals.mem_of_load hload
            exact Or.inr (Or.inr ⟨rfl, by omega, by omega, (Except.ok.inj hsection).symm⟩)

theorem producerThread_cases {g g' : Globals bufferMax} {nums nums' : Int} {action : Action}
    (hsection : producerThread g nums = .ok (g', nums', action)) :
    (g.current = bufferMax ∧ (g', nums', action) = (g, nums, .wait)) ∨
      (0 ≤ g.current ∧ g.current < bufferMax ∧ ∃ buffer,
        (g', nums', action) =
          ({ g with buffer := buffer, current := g.current + 1 }, nums - 1, .signal)) := by
  unfold producerThread at hsection
  by_cases hfull : bufferIsFull g = true
  · rw [if_pos hfull] at hsection
    have hcurrent : g.current = bufferMax := by simpa [bufferIsFull] using hfull
    exact Or.inl ⟨hcurrent, (Except.ok.inj hsection).symm⟩
  · rw [if_neg hfull] at hsection
    cases hstore : g.store g.current nums with
    | error fault =>
        rw [hstore] at hsection
        cases hsection
    | ok stored =>
        rw [hstore] at hsection
        obtain ⟨hlo, hhi, buffer, rfl⟩ := Globals.mem_of_store hstore
        exact Or.inr ⟨hlo, hhi, buffer, (Except.ok.inj hsection).symm⟩

inductive Move (s : State bufferMax threadNums) :
    Event threadNums → State bufferMax threadNums → Prop
  | push {woken cond} (buffer : Vector Int bufferMax) (hpc : s.pc .producer = .loop)
      (hnums : 0 < s.nums) (hlo : 0 ≤ s.globals.current) (hhi : s.globals.current < bufferMax)
      (hsignal : signal s.cond woken = some cond) :
      Move s (.critical .producer woken) { s with
        globals := { s.globals with buffer := buffer, current := s.globals.current + 1 }
        nums := s.nums - 1
        cond := cond }
  | full {woken} (hpc : s.pc .producer = .loop) (hnums : 0 < s.nums)
      (hfull : s.globals.current = bufferMax) :
      Move s (.critical .producer woken) { s with
        cond := insert .producer s.cond
        pc := Function.update s.pc .producer .condWait }
  | finish (hpc : s.pc .producer = .loop) (hnums : s.nums ≤ 0) :
      Move s .finish { s with pc := Function.update s.pc .producer .exited }
  | pop {woken cond} (i : Fin threadNums) (hpc : s.pc (.consumer i) = .loop)
      (hend : s.globals.endFlag = false) (hlo : 0 < s.globals.current)
      (hhi : s.globals.current ≤ bufferMax) (hsignal : signal s.cond woken = some cond) :
      Move s (.critical (.consumer i) woken) { s with
        globals := { s.globals with current := s.globals.current - 1 }
        score := Function.update s.score i (s.score i + 1)
        cond := cond }
  | empty {woken} (i : Fin threadNums) (hpc : s.pc (.consumer i) = .loop)
      (hend : s.globals.endFlag = false) (hempty : s.globals.current = 0) :
      Move s (.critical (.consumer i) woken) { s with
        cond := insert (.consumer i) s.cond
        pc := Function.update s.pc (.consumer i) .condWait }
  | leave {woken} (i : Fin threadNums) (hpc : s.pc (.consumer i) = .loop)
      (hend : s.globals.endFlag = true) :
      Move s (.critical (.consumer i) woken) { s with
        pc := Function.update s.pc (.consumer i) .exited }
  | resume (t : Thread threadNums) (hpc : s.pc t = .condWait) (hcond : t ∉ s.cond) :
      Move s (.resume t) { s with pc := Function.update s.pc t .loop }
  | spurious (t : Thread threadNums) (hcond : t ∈ s.cond) :
      Move s (.spurious t) { s with cond := s.cond.erase t }
  | createConsumer (i : Fin threadNums) (hmain : s.main = .createConsumer i) :
      Move s .main { s with
        pc := Function.update s.pc (.consumer i) .loop
        main := .createConsumer (i + 1) }
  | consumersCreated (i : Nat) (hmain : s.main = .createConsumer i) (hdone : threadNums ≤ i) :
      Move s .main { s with main := .createProducer }
  | createProducer (hmain : s.main = .createProducer) :
      Move s .main { s with pc := Function.update s.pc .producer .loop, main := .joinProducer }
  | joinProducer (hmain : s.main = .joinProducer) (hpc : s.pc .producer = .exited) :
      Move s .main { s with main := .setEnd }
  | setEnd (hmain : s.main = .setEnd) :
      Move s .main { s with
        globals := { s.globals with endFlag := true }
        cond := ∅
        main := .joinConsumer 0 }
  | joinConsumer (i : Fin threadNums) (hmain : s.main = .joinConsumer i)
      (hpc : s.pc (.consumer i) = .exited) :
      Move s .main { s with main := .joinConsumer (i + 1) }
  | consumersJoined (i : Nat) (hmain : s.main = .joinConsumer i) (hdone : threadNums ≤ i) :
      Move s .main { s with main := .returned }

variable {s t : State bufferMax threadNums}

theorem move_of_criticalStep_producer {woken : Option (Thread threadNums)}
    (hstep : criticalStep s woken .producer = some t) : Move s (.critical .producer woken) t := by
  simp only [criticalStep, Option.ite_none_right_eq_some] at hstep
  obtain ⟨⟨hpc, hnums⟩, hstep⟩ := hstep
  split at hstep
  · rename_i g nums action hsection
    rcases producerThread_cases hsection with ⟨hfull, heq⟩ | ⟨hlo, hhi, buffer, heq⟩ <;> cases heq
    · cases hstep
      exact .full hpc hnums hfull
    · obtain ⟨cond, hsignal, rfl⟩ := Option.map_eq_some_iff.mp hstep
      exact .push buffer hpc hnums hlo hhi hsignal
  · cases hstep

theorem move_of_criticalStep_consumer {i : Fin threadNums} {woken : Option (Thread threadNums)}
    (hstep : criticalStep s woken (.consumer i) = some t) :
    Move s (.critical (.consumer i) woken) t := by
  simp only [criticalStep, Option.ite_none_right_eq_some] at hstep
  obtain ⟨hpc, hstep⟩ := hstep
  split at hstep
  · rename_i g score action hsection
    rcases consumerThread_cases hsection with ⟨hend, heq⟩ | ⟨hend, hempty, heq⟩ |
      ⟨hend, hlo, hhi, heq⟩ <;> cases heq
    · cases hstep
      simpa using Move.leave i hpc hend
    · cases hstep
      simpa using Move.empty i hpc hend hempty
    · obtain ⟨cond, hsignal, rfl⟩ := Option.map_eq_some_iff.mp hstep
      exact .pop i hpc hend hlo hhi hsignal
  · cases hstep

theorem move_of_mainStep (hstep : mainStep s = some t) : Move s .main t := by
  unfold mainStep at hstep
  split at hstep
  · rename_i i hmain
    split_ifs at hstep with hi <;> cases hstep
    · exact .createConsumer ⟨i, hi⟩ hmain
    · exact .consumersCreated i hmain (by omega)
  · rename_i hmain
    cases hstep
    exact .createProducer hmain
  · rename_i hmain
    split_ifs at hstep with hpc
    cases hstep
    exact .joinProducer hmain hpc
  · rename_i hmain
    cases hstep
    exact .setEnd hmain
  · rename_i i hmain
    split_ifs at hstep with hi hpc <;> cases hstep
    · exact .joinConsumer ⟨i, hi⟩ hmain hpc
    · exact .consumersJoined i hmain (by omega)
  · cases hstep

theorem move_of_step {e : Event threadNums} (hstep : step s e = some t) : Move s e t := by
  cases e with
  | critical thread woken =>
      cases thread with
      | producer => exact move_of_criticalStep_producer hstep
      | consumer i => exact move_of_criticalStep_consumer hstep
  | resume thread =>
      simp only [step, Option.ite_none_right_eq_some, Option.some.injEq] at hstep
      obtain ⟨⟨hpc, hcond⟩, rfl⟩ := hstep
      exact .resume thread hpc hcond
  | spurious thread =>
      simp only [step, Option.ite_none_right_eq_some, Option.some.injEq] at hstep
      obtain ⟨hcond, rfl⟩ := hstep
      exact .spurious thread hcond
  | finish =>
      simp only [step, Option.ite_none_right_eq_some, Option.some.injEq] at hstep
      obtain ⟨⟨hpc, hnums⟩, rfl⟩ := hstep
      exact .finish hpc hnums
  | main => exact move_of_mainStep hstep

end CodeSlices.ProducerConsumer
