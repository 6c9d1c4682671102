import CodeSlices.Lib.Transition
import CodeSlices.MultiThreadQueue.Queue

/-!
# Runs of one queue shared by many threads

Any interleaving of `q_enqueue` and `q_dequeue` calls after `q_init`, each body one atomic step.
Next to the memory a state keeps what the calls did: one node for every `q_enqueue` that returned
`TRUE` and one entry for every `q_dequeue` that did. The queue then is the nodes inserted and not
yet removed.
-/

namespace CodeSlices.MultiThreadQueue

open CodeSlices.Transition CodeSlices.Ring

/-- A call with the arguments of its caller; `block` is what `malloc` answers during the call. -/
inductive Call
  | enqueue (data : Addr) (block : Option Addr)
  | dequeue (data : Addr)
  deriving DecidableEq

structure Event where
  thread : Nat
  call : Call
  deriving DecidableEq

structure Node where
  block : Addr
  data : Addr
  deriving DecidableEq

structure State where
  mem : Memory
  /-- One node for each `q_enqueue` that returned `TRUE`. -/
  inserted : List Node
  /-- One entry for each `q_dequeue` that returned `TRUE`: the caller's object after the call, if
  `data` points to one. -/
  received : List (Option Addr)

/-- The memory when the program starts: only the queue itself, with its cells zero. -/
def startMemory (q : Addr) (slot : Addr → Addr) : Memory where
  live := {q}
  prev := fun _ => NULL
  next := fun _ => NULL
  data := fun _ => NULL
  slot := slot
  allocated := []
  freed := []

/-- The state after `q_init`. -/
def initial (q : Addr) (slot : Addr → Addr) : State where
  mem := { startMemory q slot with
    prev := Function.update (fun _ => NULL) q q
    next := Function.update (fun _ => NULL) q q
    data := Function.update (fun _ => NULL) q NULL }
  inserted := []
  received := []

def enqueueStep (q : Addr) (s : State) (data : Addr) (block : Option Addr) : Option State :=
  if s.mem.Fresh block then
    match qEnqueue s.mem q block data with
    | .ok (true, mem) => some { s with
        mem := mem
        inserted := s.inserted ++ (block.map fun p => Node.mk p data).toList }
    | .ok (false, mem) => some { s with mem := mem }
    | .error _ => none
  else none

def dequeueStep (q : Addr) (s : State) (data : Addr) : Option State :=
  match qDequeue s.mem q data with
  | .ok (true, mem) => some { s with
      mem := mem
      received := s.received ++ [if data = NULL then none else some (mem.slot data)] }
  | .ok (false, mem) => some { s with mem := mem }
  | .error _ => none

def step (q : Addr) (s : State) (e : Event) : Option State :=
  match e.call with
  | .enqueue data block => enqueueStep q s data block
  | .dequeue data => dequeueStep q s data

/-- The nodes inserted and not yet removed. -/
def State.pending (s : State) : List Node := s.inserted.drop s.received.length

theorem qInit_startMemory {q : Addr} (hq : q ≠ NULL) (slot : Addr → Addr) :
    qInit (startMemory q slot) q = .ok (initial q slot).mem := by
  have hlive : q ∈ (startMemory q slot).live := Finset.mem_singleton_self q
  simp only [qInit, listInit, ne_eq, hq, not_false_eq_true, if_true, Memory.writePrev_of_mem,
    Memory.writeNext_of_mem, Memory.writeData_of_mem, hlive, ok_bind]
  rfl

/-- The memory holds the nodes that are pending, and `free` got the blocks of the others. -/
structure Inv (q : Addr) (s : State) : Prop where
  removed_le : s.received.length ≤ s.inserted.length
  holds : Holds s.mem q (s.pending.map Node.block)
  data : ∀ node ∈ s.pending, s.mem.data node.block = node.data
  allocated : s.mem.allocated = s.inserted.map Node.block
  freed : s.mem.freed = (s.inserted.take s.received.length).map Node.block
  nodup : (q :: s.inserted.map Node.block).Nodup

variable {q : Addr} {s t : State} {e : Event}

theorem inv_initial (hq : q ≠ NULL) (slot : Addr → Addr) : Inv q (initial q slot) where
  removed_le := le_refl _
  holds := by
    have hself : Function.update (fun _ : Addr => NULL) q q q = q := by rw [Function.update_self]
    refine ⟨⟨isRing_nil.mpr ⟨hself, hself⟩, ?_⟩, ?_, ?_, ?_⟩
    · exact fun p hp => Finset.mem_singleton.mpr (List.mem_singleton.mp hp)
    · exact fun p => Finset.mem_singleton.trans List.mem_singleton.symm
    · exact fun p hp => absurd hp List.not_mem_nil
    · exact fun hnull => hq (List.mem_singleton.mp hnull).symm
  data := fun node hnode => absurd hnode List.not_mem_nil
  allocated := rfl
  freed := rfl
  nodup := List.nodup_singleton q

inductive Move (q : Addr) (s : State) : Call → State → Prop
  | failed (data : Addr) : Move q s (.enqueue data none) s
  | enqueued (data p : Addr) (mem : Memory) (hfresh : s.mem.Fresh (some p))
      (hholds : Holds mem q (s.pending.map Node.block ++ [p]))
      (hdata : mem.data = Function.update s.mem.data p data) (hslot : mem.slot = s.mem.slot)
      (hallocated : mem.allocated = s.mem.allocated ++ [p]) (hfreed : mem.freed = s.mem.freed) :
      Move q s (.enqueue data (some p)) { s with
        mem := mem
        inserted := s.inserted ++ [Node.mk p data] }
  | empty (data : Addr) (hempty : s.pending = []) : Move q s (.dequeue data) s
  | dequeued (data : Addr) (node : Node) (rest : List Node) (mem : Memory)
      (hpending : s.pending = node :: rest) (hholds : Holds mem q (rest.map Node.block))
      (hdata : mem.data = Function.update s.mem.data node.block NULL)
      (hslot : mem.slot = s.mem.slot) (hallocated : mem.allocated = s.mem.allocated)
      (hfreed : mem.freed = s.mem.freed ++ [node.block]) :
      Move q s (.dequeue data) { s with
        mem := mem
        received := s.received ++ [if data = NULL then none else some (mem.slot data)] }

/-- A call whose `malloc` answers with a block it may hand out does not fault. -/
theorem exists_step (hs : Inv q s) (e : Event)
    (hfresh : ∀ data block, e.call = .enqueue data block → s.mem.Fresh block) :
    ∃ t, step q s e = some t ∧ Move q s e.call t := by
  cases hcall : e.call with
  | enqueue data block =>
      have hblock := hfresh data block hcall
      simp only [step, hcall, enqueueStep, if_pos hblock]
      cases block with
      | none => exact ⟨s, by rw [qEnqueue_none], .failed data⟩
      | some p =>
          obtain ⟨mem, henqueue, hholds, hdata, hslot, hallocated, hfreed⟩ :=
            qEnqueue_some hs.holds hblock data
          refine ⟨_, ?_, .enqueued data p mem hblock hholds hdata hslot hallocated hfreed⟩
          rw [henqueue]
          rfl
  | dequeue data =>
      simp only [step, hcall, dequeueStep]
      cases hpending : s.pending with
      | nil =>
          have hholds : Holds s.mem q [] := by simpa [hpending] using hs.holds
          exact ⟨s, by rw [qDequeue_nil hholds], .empty data hpending⟩
      | cons node rest =>
          have hholds : Holds s.mem q (node.block :: rest.map Node.block) := by
            simpa [hpending] using hs.holds
          obtain ⟨mem, hdequeue, hholds', hdata, hslot, hallocated, hfreed⟩ :=
            qDequeue_cons hholds data
          exact ⟨_, by rw [hdequeue],
            .dequeued data node rest mem hpending hholds' hdata hslot hallocated hfreed⟩

theorem move_of_step (hs : Inv q s) (hstep : step q s e = some t) : Move q s e.call t := by
  have hfresh : ∀ data block, e.call = .enqueue data block → s.mem.Fresh block := by
    intro data block hcall
    by_contra hnot
    simp only [step, hcall, enqueueStep, if_neg hnot] at hstep
    cases hstep
  obtain ⟨t', hstep', hmove⟩ := exists_step hs e hfresh
  exact Option.some.inj (hstep'.symm.trans hstep) ▸ hmove

theorem pending_insert (hle : s.received.length ≤ s.inserted.length) (node : Node) :
    (s.inserted ++ [node]).drop s.received.length = s.pending ++ [node] :=
  List.drop_append_of_le_length hle

theorem pending_remove {node : Node} {rest : List Node} (hpending : s.pending = node :: rest) :
    s.inserted[s.received.length]? = some node ∧ s.inserted.drop (s.received.length + 1) = rest ∧
      s.inserted.take (s.received.length + 1) = s.inserted.take s.received.length ++ [node] := by
  have hget : s.inserted[s.received.length]? = some node := by
    rw [← List.head?_drop]
    change s.pending.head? = some node
    rw [hpending, List.head?_cons]
  refine ⟨hget, ?_, ?_⟩
  · rw [← List.tail_drop]
    change s.pending.tail = rest
    rw [hpending, List.tail_cons]
  · rw [List.take_add_one, hget, Option.toList_some]

theorem inv_step (hs : Inv q s) (hstep : step q s e = some t) : Inv q t := by
  have hmove := move_of_step hs hstep
  generalize e.call = call at hmove
  cases hmove with
  | failed data => exact hs
  | empty data hempty => exact hs
  | enqueued data p mem hfresh hholds hdata hslot hallocated hfreed =>
      have hnew : p ∉ s.inserted.map Node.block := hs.allocated ▸ hfresh.2.2
      have hne : ∀ node ∈ s.pending, node.block ≠ p := fun node hnode heq =>
        hnew (heq ▸ List.mem_map_of_mem (List.mem_of_mem_drop hnode))
      refine ⟨?_, ?_, ?_, ?_, ?_, ?_⟩
      · exact hs.removed_le.trans (by simp)
      · simpa only [State.pending, pending_insert hs.removed_le, List.map_append,
          List.map_singleton] using hholds
      · intro node hnode
        simp only [State.pending, pending_insert hs.removed_le] at hnode
        rw [hdata]
        rcases List.mem_append.mp hnode with hnode | hnode
        · rw [Function.update_of_ne (hne node hnode)]
          exact hs.data node hnode
        · rw [List.mem_singleton.mp hnode, Function.update_self]
      · rw [hallocated, hs.allocated, List.map_append, List.map_singleton]
      · rw [hfreed, hs.freed, List.take_append_of_le_length hs.removed_le]
      · rw [List.map_append, List.map_singleton, ← List.cons_append, ← List.concat_eq_append]
        refine hs.nodup.concat fun hmem => ?_
        rcases List.mem_cons.mp hmem with rfl | hmem
        · exact hfresh.2.1 hs.holds.linked.list_live
        · exact hnew hmem
  | dequeued data node rest mem hpending hholds hdata hslot hallocated hfreed =>
      obtain ⟨hget, hdrop, htake⟩ := pending_remove hpending
      have hlen : s.received.length < s.inserted.length := (List.getElem?_eq_some_iff.mp hget).1
      have hne : ∀ other ∈ rest, other.block ≠ node.block := by
        have hring := hs.holds.linked.ring.nodup
        rw [hpending, List.map_cons] at hring
        have hnotMem := (List.nodup_cons.mp (List.nodup_cons.mp hring).2).1
        exact fun other hother heq => hnotMem (heq ▸ List.mem_map_of_mem hother)
      refine ⟨?_, ?_, ?_, ?_, ?_, hs.nodup⟩
      · rw [List.length_append, List.length_singleton]
        exact hlen
      · simpa only [State.pending, List.length_append, List.length_singleton, hdrop] using hholds
      · intro other hother
        simp only [State.pending, List.length_append, List.length_singleton, hdrop] at hother
        rw [hdata, Function.update_of_ne (hne other hother)]
        exact hs.data other (hpending ▸ List.mem_cons_of_mem node hother)
      · rw [hallocated, hs.allocated]
      · rw [hfreed, hs.freed, List.length_append, List.length_singleton, htake, List.map_append,
          List.map_singleton]

theorem inv_of_reachable (hq : q ≠ NULL) {slot : Addr → Addr}
    (hreach : Reachable (step q) (initial q slot) s) : Inv q s :=
  hreach.invariant (fun _ _ _ => inv_step) (inv_initial hq slot)

/-! ### The queue after any run -/

structure Correct (q : Addr) (s : State) : Prop where
  /-- The cells reached from the head are one cycle through it, and `prev` is the inverse of
  `next`. -/
  cycle : ∀ p, (∃ n, s.mem.next^[n] q = p) → p ∈ s.mem.live ∧ s.mem.prev (s.mem.next p) = p ∧
    s.mem.next (s.mem.prev p) = p ∧ ∃ n, s.mem.next^[n] p = q
  allocated : s.mem.allocated = s.inserted.map Node.block
  /-- The dequeues freed the blocks that the enqueues allocated, in the same order. -/
  fifo : s.mem.freed = (s.inserted.take s.received.length).map Node.block
  unlinked : ∀ p ∈ s.mem.freed, p ∉ s.mem.live ∧ ∀ n, s.mem.next^[n] q ≠ p
  /-- A dequeue does not fault and returns `FALSE` exactly when everything inserted was removed. -/
  dequeue : ∀ data, ∃ ret mem, qDequeue s.mem q data = .ok (ret, mem) ∧
    (ret = false ↔ s.received.length = s.inserted.length)
  /-- An enqueue does not fault, and fails exactly when `malloc` does, leaving the memory alone. -/
  enqueue : ∀ data block, s.mem.Fresh block → ∃ ret mem,
    qEnqueue s.mem q block data = .ok (ret, mem) ∧ (ret = false ↔ block = none) ∧
      (ret = false → mem = s.mem)
  /-- `q_clean` ends without a fault, and then every block was freed once and none is live. -/
  clean : ∃ fuel mem, qClean s.mem q fuel = .ok mem ∧ mem.allocated = s.inserted.map Node.block ∧
    mem.freed = mem.allocated ∧ mem.freed.Nodup ∧ ∀ p, p ∈ mem.live ↔ p = q

theorem pending_eq_nil_iff (hs : Inv q s) :
    s.pending = [] ↔ s.received.length = s.inserted.length := by
  have hle := hs.removed_le
  rw [State.pending, List.drop_eq_nil_iff]
  omega

theorem qDequeue_ret (hs : Inv q s) (data : Addr) :
    ∃ ret mem, qDequeue s.mem q data = .ok (ret, mem) ∧
      (ret = false ↔ s.received.length = s.inserted.length) := by
  obtain ⟨ret, mem, hdequeue, hret, _⟩ := qDequeue_eq hs.holds data
  rw [List.map_eq_nil_iff, pending_eq_nil_iff hs] at hret
  exact ⟨ret, mem, hdequeue, hret⟩

theorem qEnqueue_ret (hs : Inv q s) (data : Addr) {block : Option Addr}
    (hfresh : s.mem.Fresh block) :
    ∃ ret mem, qEnqueue s.mem q block data = .ok (ret, mem) ∧ (ret = false ↔ block = none) ∧
      (ret = false → mem = s.mem) := by
  cases block with
  | none => exact ⟨false, s.mem, qEnqueue_none s.mem q data, iff_of_true rfl rfl, fun _ => rfl⟩
  | some p =>
      obtain ⟨mem, henqueue, _⟩ := qEnqueue_some hs.holds hfresh data
      exact ⟨true, mem, henqueue, iff_of_false (by decide) nofun, nofun⟩

/-- After any interleaving of calls the queue is one cycle, first in first out, with no fault in any
further call, and `q_clean` frees every block that was ever allocated exactly once. -/
theorem correct_of_reachable (hq : q ≠ NULL) {slot : Addr → Addr} {s : State}
    (hreach : Reachable (step q) (initial q slot) s) : Correct q s := by
  have hs := inv_of_reachable hq hreach
  have hring := hs.holds.linked.ring
  have hsplit : s.mem.freed ++ s.pending.map Node.block = s.inserted.map Node.block := by
    rw [hs.freed, ← List.map_append, State.pending, List.take_append_drop]
  have hnodup : (q :: (s.mem.freed ++ s.pending.map Node.block)).Nodup := hsplit ▸ hs.nodup
  refine ⟨fun p hp => ?_, hs.allocated, hs.freed, fun p hp => ?_, qDequeue_ret hs,
    fun data block => qEnqueue_ret hs data, ?_⟩
  · have hmem := hring.reachable_iff.mp hp
    exact ⟨hs.holds.linked.live p hmem, hring.inverse hmem⟩
  · have hnotMem : p ∉ q :: s.pending.map Node.block := by
      obtain ⟨hq, hnodup⟩ := List.nodup_cons.mp hnodup
      intro hmem
      rcases List.mem_cons.mp hmem with rfl | hmem
      · exact hq (List.mem_append_left _ hp)
      · exact (List.nodup_append.mp hnodup).2.2 p hp p hmem rfl
    refine ⟨fun hlive => hnotMem ((hs.holds.live_iff p).mp hlive), fun n hn => ?_⟩
    exact hnotMem (hring.reachable_iff.mp ⟨n, hn⟩)
  · obtain ⟨mem, hclean, hholds, hallocated, hfreed⟩ := qClean_eq hs.holds
    rw [hsplit] at hfreed
    have hall := hallocated.trans hs.allocated
    refine ⟨_, mem, hclean, hall, hfreed.trans hall.symm, ?_, ?_⟩
    · exact hfreed ▸ (List.nodup_cons.mp hs.nodup).2
    · exact fun p => (hholds.live_iff p).trans List.mem_singleton

def sharedRun : List Event :=
  [⟨0, .enqueue 7 (some 2)⟩, ⟨1, .enqueue 8 none⟩, ⟨1, .enqueue 8 (some 3)⟩, ⟨2, .dequeue NULL⟩]

theorem sharedRun_correct : ∃ s, exec (step 1) (initial 1 fun _ => 0) sharedRun = some s ∧
    s.received.length = 1 ∧ Correct 1 s := by
  have hrun : ((exec (step 1) (initial 1 fun _ => 0) sharedRun).map
      fun s => s.received.length) = some 1 := by decide
  obtain ⟨s, hs, hreceived⟩ := Option.map_eq_some_iff.mp hrun
  exact ⟨s, hs, hreceived, correct_of_reachable (by decide) ⟨sharedRun, hs⟩⟩

end CodeSlices.MultiThreadQueue
