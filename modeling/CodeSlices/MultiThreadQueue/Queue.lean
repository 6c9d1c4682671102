import CodeSlices.MultiThreadQueue.List

/-!
# The queue

`c/multi-thread-queue/queue.c`. Every body runs under `q->lock`, so it is one function of the
memory; the sentinel is the first member of the queue, so `&q->head` is `q`. The results say what
each operation does to a memory in which nothing but the queue is live.
-/

namespace CodeSlices.MultiThreadQueue

open CodeSlices.Ring

def qInit (m : Memory) (q : Addr) : Except Fault Memory := listInit m q

def qEnqueue (m : Memory) (q : Addr) (block : Option Addr) (data : Addr) :
    Except Fault (Bool × Memory) := do
  let (list, m) ← listNew m block data
  if list = NULL then
    .ok (false, m)
  else
    let (_, m) ← listAdd m q list
    .ok (true, m)

/-- `data` is assigned to, not written through: the parameter is a copy of the caller's pointer. -/
def qDequeue (m : Memory) (q data : Addr) : Except Fault (Bool × Memory) := do
  if ← listIsEmpty m q then
    .ok (false, m)
  else
    let first ← m.readNext q
    let (list, m) ← listRemove m q first
    let _data ← if data ≠ NULL then m.readData list else .ok data
    let m ← listFree m list
    .ok (true, m)

/-- The loop of `q_clean`, for as many passes as there is fuel. -/
def qClean (m : Memory) (q : Addr) : Nat → Except Fault Memory
  | 0 => .error .outOfFuel
  | fuel + 1 => do
      let (ret, m) ← qDequeue m q NULL
      if ret then qClean m q fuel else .ok m

/-- The queue holds `blocks`, and nothing else is live. -/
structure Holds (m : Memory) (q : Addr) (blocks : List Addr) : Prop where
  linked : Linked m q blocks
  live_iff : ∀ p, p ∈ m.live ↔ p ∈ q :: blocks
  allocated : ∀ p ∈ blocks, p ∈ m.allocated
  null : NULL ∉ q :: blocks

variable {m : Memory} {q p : Addr} {blocks : List Addr}

theorem qEnqueue_none (m : Memory) (q data : Addr) : qEnqueue m q none data = .ok (false, m) := rfl

theorem listNew_some (hp : p ≠ NULL) (data : Addr) :
    listNew m (some p) data = .ok (p, { m with
      live := insert p m.live
      prev := Function.update m.prev p p
      next := Function.update m.next p p
      data := Function.update m.data p data
      allocated := m.allocated ++ [p] }) := by
  have hlive : p ∈ insert p m.live := Finset.mem_insert_self p m.live
  simp only [listNew, Memory.malloc, listInit, ne_eq, hp, not_false_eq_true, if_true, ok_bind,
    Memory.writePrev_of_mem, Memory.writeNext_of_mem, Memory.writeData_of_mem, hlive,
    Function.update_idem]

theorem qEnqueue_some (hholds : Holds m q blocks) (hfresh : m.Fresh (some p)) (data : Addr) :
    ∃ m', qEnqueue m q (some p) data = .ok (true, m') ∧ Holds m' q (blocks ++ [p]) ∧
      m'.data = Function.update m.data p data ∧ m'.slot = m.slot ∧
      m'.allocated = m.allocated ++ [p] ∧ m'.freed = m.freed := by
  obtain ⟨hp, hdead, hnew⟩ := hfresh
  have hmem : p ∉ q :: blocks := fun h => hdead ((hholds.live_iff p).mpr h)
  have hne : ∀ x ∈ q :: blocks, x ≠ p := fun x hx heq => hmem (heq ▸ hx)
  have hnewLinked : Linked { m with
      live := insert p m.live
      prev := Function.update m.prev p p
      next := Function.update m.next p p
      data := Function.update m.data p data
      allocated := m.allocated ++ [p] } q blocks := by
    refine ⟨hholds.linked.ring.congr ?_ ?_, fun x hx => ?_⟩
    · exact fun x hx => Function.update_of_ne (hne x hx) _ _
    · exact fun x hx => Function.update_of_ne (hne x hx) _ _
    · exact Finset.mem_insert_of_mem (hholds.linked.live x hx)
  obtain ⟨next, prev, hadd, hring⟩ := listAdd_eq hnewLinked hmem (Finset.mem_insert_self p m.live)
  refine ⟨{ m with
      live := insert p m.live
      prev := prev
      next := next
      data := Function.update m.data p data
      allocated := m.allocated ++ [p] }, ?_, ⟨⟨hring, ?_⟩, ?_, ?_, ?_⟩, rfl, rfl, rfl, rfl⟩
  · rw [qEnqueue, listNew_some hp, ok_bind]
    simp only [hp, if_false, hadd, ok_bind]
  · intro x hx
    rw [← List.cons_append] at hx
    rcases List.mem_append.mp hx with hx | hx
    · exact Finset.mem_insert_of_mem (hholds.linked.live x hx)
    · rw [List.mem_singleton.mp hx]
      exact Finset.mem_insert_self p m.live
  · intro x
    rw [Finset.mem_insert, hholds.live_iff, ← List.cons_append, List.mem_append,
      List.mem_singleton, or_comm]
  · intro x hx
    rcases List.mem_append.mp hx with hx | hx
    · exact List.mem_append_left [p] (hholds.allocated x hx)
    · exact List.mem_append_right m.allocated hx
  · rw [← List.cons_append]
    intro hnull
    rcases List.mem_append.mp hnull with hnull | hnull
    · exact hholds.null hnull
    · exact hp (List.mem_singleton.mp hnull).symm

theorem qDequeue_nil (hholds : Holds m q []) (data : Addr) :
    qDequeue m q data = .ok (false, m) := by
  rw [qDequeue, listIsEmpty_eq hholds.linked, ok_bind, decide_eq_true rfl, if_pos rfl]

theorem listFree_eq (hp : p ≠ NULL) (hlive : p ∈ m.live) (hallocated : p ∈ m.allocated) :
    listFree m p = .ok { m with
      live := m.live.erase p
      prev := Function.update m.prev p NULL
      next := Function.update m.next p NULL
      data := Function.update m.data p NULL
      freed := m.freed ++ [p] } := by
  simp only [listFree, ne_eq, hp, not_false_eq_true, if_true, ok_bind, Memory.writePrev_of_mem,
    Memory.writeNext_of_mem, Memory.writeData_of_mem, Memory.free_of_mem, hlive, hallocated]

/-- A `q_dequeue` on a queue that is not empty frees its first block. The caller's objects stay as
they are, whatever `data` points to. -/
theorem qDequeue_cons (hholds : Holds m q (p :: blocks)) (data : Addr) :
    ∃ m', qDequeue m q data = .ok (true, m') ∧ Holds m' q blocks ∧
      m'.data = Function.update m.data p NULL ∧ m'.slot = m.slot ∧ m'.allocated = m.allocated ∧
      m'.freed = m.freed ++ [p] := by
  have hnodup := hholds.linked.ring.nodup
  have hmem : p ∉ q :: blocks := by
    have hswap : (p :: q :: blocks).Nodup := (List.Perm.swap p q blocks).nodup_iff.mp hnodup
    exact (List.nodup_cons.mp hswap).1
  have hne : ∀ x ∈ q :: blocks, x ≠ p := fun x hx heq => hmem (heq ▸ hx)
  have hlive : p ∈ m.live := hholds.linked.live p (List.mem_cons_of_mem q List.mem_cons_self)
  have hnull : p ≠ NULL := fun heq =>
    hholds.null (heq ▸ List.mem_cons_of_mem q List.mem_cons_self)
  have hallocated : p ∈ m.allocated := hholds.allocated p List.mem_cons_self
  have hsub : ∀ x ∈ q :: blocks, x ∈ q :: p :: blocks := by
    intro x hx
    rcases List.mem_cons.mp hx with rfl | hx
    · exact List.mem_cons_self
    · exact List.mem_cons_of_mem q (List.mem_cons_of_mem p hx)
  have hlinked : Linked m q ([] ++ p :: blocks) := hholds.linked
  obtain ⟨next, prev, hremove, hring, _, _⟩ := listRemove_eq hlinked
  refine ⟨{ m with
      live := m.live.erase p
      prev := Function.update prev p NULL
      next := Function.update next p NULL
      data := Function.update m.data p NULL
      freed := m.freed ++ [p] }, ?_, ⟨⟨?_, ?_⟩, ?_, ?_, ?_⟩, rfl, rfl, rfl, rfl⟩
  · rw [qDequeue, listIsEmpty_eq hholds.linked, ok_bind,
      decide_eq_false (List.cons_ne_nil p blocks), if_neg Bool.false_ne_true,
      Memory.readNext_of_mem hholds.linked.list_live, ok_bind,
      hholds.linked.ring.next_head, hremove, ok_bind]
    have hread : Memory.readData { m with prev := prev, next := next } p = .ok (m.data p) :=
      Memory.readData_of_mem hlive
    have hfree : listFree { m with prev := prev, next := next } p = .ok { m with
        live := m.live.erase p
        prev := Function.update prev p NULL
        next := Function.update next p NULL
        data := Function.update m.data p NULL
        freed := m.freed ++ [p] } := listFree_eq hnull hlive hallocated
    simp only [hread, hfree, ok_bind, ite_not]
    split_ifs <;> rfl
  · refine IsRing.congr hring ?_ ?_
    · exact fun x hx => Function.update_of_ne (hne x hx) _ _
    · exact fun x hx => Function.update_of_ne (hne x hx) _ _
  · exact fun x hx => Finset.mem_erase.mpr ⟨hne x hx, hholds.linked.live x (hsub x hx)⟩
  · intro x
    rw [Finset.mem_erase, hholds.live_iff]
    constructor
    · rintro ⟨hx, hx'⟩
      simp only [List.mem_cons] at hx' ⊢
      tauto
    · exact fun hx => ⟨hne x hx, hsub x hx⟩
  · exact fun x hx => hholds.allocated x (List.mem_cons_of_mem p hx)
  · exact fun h => hholds.null (hsub NULL h)

theorem card_live (hholds : Holds m q blocks) : m.live.card = blocks.length + 1 := by
  have hlive : m.live = (q :: blocks).toFinset := by
    ext p
    rw [hholds.live_iff, List.mem_toFinset]
  rw [hlive, List.toFinset_card_of_nodup hholds.linked.ring.nodup, List.length_cons]

theorem qDequeue_eq (hholds : Holds m q blocks) (data : Addr) :
    ∃ ret m', qDequeue m q data = .ok (ret, m') ∧ (ret = false ↔ blocks = []) ∧
      Holds m' q blocks.tail ∧ if ret then m'.live.card < m.live.card else m' = m := by
  cases blocks with
  | nil => exact ⟨false, m, qDequeue_nil hholds data, iff_of_true rfl rfl, hholds, rfl⟩
  | cons p blocks =>
      obtain ⟨m', hdequeue, hholds', _⟩ := qDequeue_cons hholds data
      refine ⟨true, m', hdequeue, iff_of_false (by decide) (List.cons_ne_nil p blocks), hholds', ?_⟩
      change m'.live.card < m.live.card
      rw [card_live hholds, card_live hholds', List.length_cons]
      omega

theorem holds_of_qDequeue {m' : Memory} {data : Addr} {ret : Bool} (hholds : Holds m q blocks)
    (hdequeue : qDequeue m q data = .ok (ret, m')) : ∃ blocks', Holds m' q blocks' := by
  obtain ⟨ret₁, m₁, hdequeue₁, _, hholds₁, _⟩ := qDequeue_eq hholds data
  obtain ⟨rfl, rfl⟩ := Prod.mk.inj (Except.ok.inj (hdequeue.symm.trans hdequeue₁))
  exact ⟨blocks.tail, hholds₁⟩

theorem holds_of_qEnqueue {m' : Memory} {data : Addr} {ret : Bool} {block : Option Addr}
    (hholds : Holds m q blocks) (hfresh : m.Fresh block)
    (henqueue : qEnqueue m q block data = .ok (ret, m')) : ∃ blocks', Holds m' q blocks' := by
  cases block with
  | none =>
      rw [qEnqueue_none] at henqueue
      obtain ⟨_, rfl⟩ := Prod.mk.inj (Except.ok.inj henqueue)
      exact ⟨blocks, hholds⟩
  | some p =>
      obtain ⟨m₁, henqueue₁, hholds₁, _⟩ := qEnqueue_some hholds hfresh data
      obtain ⟨_, rfl⟩ := Prod.mk.inj (Except.ok.inj (henqueue.symm.trans henqueue₁))
      exact ⟨blocks ++ [p], hholds₁⟩

theorem qClean_eq (hholds : Holds m q blocks) :
    ∃ m', qClean m q (blocks.length + 1) = .ok m' ∧ Holds m' q [] ∧
      m'.allocated = m.allocated ∧ m'.freed = m.freed ++ blocks := by
  induction blocks generalizing m with
  | nil =>
      refine ⟨m, ?_, hholds, rfl, (List.append_nil _).symm⟩
      rw [List.length_nil, qClean, qDequeue_nil hholds, ok_bind]
      exact if_neg Bool.false_ne_true
  | cons p blocks ih =>
      obtain ⟨m₁, hdequeue, hholds₁, _, _, hallocated₁, hfreed₁⟩ := qDequeue_cons hholds NULL
      obtain ⟨m', hclean, hholds', hallocated', hfreed'⟩ := ih hholds₁
      refine ⟨m', ?_, hholds', hallocated'.trans hallocated₁, ?_⟩
      · rw [List.length_cons, qClean, hdequeue, ok_bind]
        exact (if_pos rfl).trans hclean
      · rw [hfreed', hfreed₁, List.append_assoc, List.singleton_append]

end CodeSlices.MultiThreadQueue
