import CodeSlices.Lib.Ring
import CodeSlices.MultiThreadQueue.Memory

/-!
# The doubly linked list

`c/multi-thread-queue/list.c`, statement by statement, and what each operation does to a list that
is a ring through its sentinel. `malloc` takes the allocator's choice as a parameter.
-/

namespace CodeSlices.MultiThreadQueue

open CodeSlices.Ring

/-- `LIST_IS_EMPTY`. -/
def listIsEmpty (m : Memory) (list : Addr) : Except Fault Bool := do
  let prev ← m.readPrev list
  if prev = list then
    let next ← m.readNext list
    .ok (next = list)
  else
    .ok false

def listInit (m : Memory) (list : Addr) : Except Fault Memory :=
  if list ≠ NULL then do
    let m ← m.writePrev list list
    let m ← m.writeNext list list
    m.writeData list NULL
  else
    .ok m

def listNew (m : Memory) (block : Option Addr) (data : Addr) : Except Fault (Addr × Memory) :=
  let (list, m) := m.malloc block
  if list ≠ NULL then do
    let m ← listInit m list
    let m ← m.writeData list data
    .ok (list, m)
  else
    .ok (list, m)

def listFree (m : Memory) (node : Addr) : Except Fault Memory :=
  if node ≠ NULL then do
    let m ← m.writePrev node NULL
    let m ← m.writeNext node NULL
    let m ← m.writeData node NULL
    m.free node
  else
    .ok m

def listRemove (m : Memory) (list node : Addr) : Except Fault (Addr × Memory) := do
  if ← listIsEmpty m list then
    .ok (node, m)
  else
    let prev ← m.readPrev node
    let next ← m.readNext node
    let m ← m.writeNext prev next
    let m ← m.writePrev next prev
    let m ← m.writePrev node node
    let m ← m.writeNext node node
    .ok (node, m)

def listAdd (m : Memory) (list node : Addr) : Except Fault (Addr × Memory) := do
  if ← listIsEmpty m list then
    let m ← m.writeNext list node
    let m ← m.writePrev list node
    let m ← m.writePrev node list
    let m ← m.writeNext node list
    .ok (list, m)
  else
    let last ← m.readPrev list
    let m ← m.writeNext last node
    let last ← m.readPrev list
    let m ← m.writePrev node last
    let m ← m.writeNext node list
    let m ← m.writePrev list node
    .ok (list, m)

/-! ### What the operations do to a ring -/

/-- The memory links `nodes` into a list with the sentinel `list`. -/
structure Linked (m : Memory) (list : Addr) (nodes : List Addr) : Prop where
  ring : IsRing m.next m.prev list nodes
  live : ∀ p ∈ list :: nodes, p ∈ m.live

variable {m : Memory} {list node : Addr} {nodes xs ys : List Addr}

theorem Linked.list_live (hlinked : Linked m list nodes) : list ∈ m.live :=
  hlinked.live list List.mem_cons_self

theorem listIsEmpty_eq (hlinked : Linked m list nodes) :
    listIsEmpty m list = .ok (decide (nodes = [])) := by
  have hlive := hlinked.list_live
  simp only [listIsEmpty, Memory.readPrev_of_mem hlive, Memory.readNext_of_mem hlive, ok_bind,
    hlinked.ring.next_head_eq_iff]
  split_ifs with hprev
  · rfl
  · have hne : nodes ≠ [] := by
      rintro rfl
      exact hprev hlinked.ring.prev_head_of_nil
    rw [decide_eq_false hne]

/-- `list_add` links the node in at the end and touches nothing but the links. -/
theorem listAdd_eq (hlinked : Linked m list nodes) (hnode : node ∉ list :: nodes)
    (hlive : node ∈ m.live) :
    ∃ next prev, listAdd m list node = .ok (list, { m with next := next, prev := prev }) ∧
      IsRing next prev list (nodes ++ [node]) := by
  have hlist := hlinked.list_live
  have hlast := hlinked.live _ hlinked.ring.prev_head_mem
  have hne : list ≠ node := fun heq => hnode (heq ▸ List.mem_cons_self)
  have hneLast : m.prev list ≠ node := fun heq => hnode (heq ▸ hlinked.ring.prev_head_mem)
  have hother : ∀ x ∈ list :: nodes, x ≠ node := fun x hx heq => hnode (heq ▸ hx)
  by_cases hempty : nodes = []
  · subst hempty
    have hself := hlinked.ring.prev_head_of_nil
    refine ⟨Function.update (Function.update m.next list node) node list,
      Function.update (Function.update m.prev list node) node list, ?_, ?_⟩
    · simp only [listAdd, listIsEmpty_eq hlinked, ok_bind, decide_true, if_true,
        Memory.writeNext_of_mem, Memory.writePrev_of_mem, hlist, hlive]
    · refine hlinked.ring.insert_last hnode ?_ ?_ ?_ ?_ ?_ ?_
      · rw [hself, Function.update_of_ne hne, Function.update_self]
      · rw [Function.update_self]
      · rw [Function.update_of_ne hne, Function.update_self]
      · rw [Function.update_self, hself]
      · intro x hx hx'
        rw [hself] at hx'
        rw [Function.update_of_ne (hother x hx), Function.update_of_ne hx']
      · exact fun x hx => absurd hx List.not_mem_nil
  · have hneHead : ∀ x ∈ nodes, x ≠ list := fun x hx heq =>
      (List.nodup_cons.mp hlinked.ring.nodup).1 (heq ▸ hx)
    refine ⟨Function.update (Function.update m.next (m.prev list) node) node list,
      Function.update (Function.update m.prev node (m.prev list)) list node, ?_, ?_⟩
    · simp only [listAdd, listIsEmpty_eq hlinked, ok_bind, hempty, decide_false,
        Bool.false_eq_true, if_false, Memory.readPrev_of_mem, Memory.writeNext_of_mem,
        Memory.writePrev_of_mem, hlist, hlast, hlive]
    · refine hlinked.ring.insert_last hnode ?_ ?_ ?_ ?_ ?_ ?_
      · rw [Function.update_of_ne hneLast, Function.update_self]
      · rw [Function.update_self]
      · rw [Function.update_self]
      · rw [Function.update_of_ne (Ne.symm hne), Function.update_self]
      · intro x hx hx'
        rw [Function.update_of_ne (hother x hx), Function.update_of_ne hx']
      · intro x hx
        rw [Function.update_of_ne (hneHead x hx),
          Function.update_of_ne (hother x (List.mem_cons_of_mem list hx))]

/-- `list_remove` joins the neighbours of the node, wherever it is in the list, and links the node
to itself. -/
theorem listRemove_eq (hlinked : Linked m list (xs ++ node :: ys)) :
    ∃ next prev, listRemove m list node = .ok (node, { m with next := next, prev := prev }) ∧
      IsRing next prev list (xs ++ ys) ∧ next node = node ∧ prev node = node := by
  have hring := hlinked.ring
  obtain ⟨hbefore, hafter⟩ := path_append.mp hring.path
  have hprevMem : m.prev node ∈ list :: xs := hbefore.prev_mem
  have hnextMem : m.next node ∈ ys ++ [list] :=
    (hafter.back_and_forth.1 List.mem_cons_self).1
  have hnodup : (node :: (list :: xs ++ ys)).Nodup := List.nodup_middle.mp hring.nodup
  have hother : ∀ x ∈ list :: (xs ++ ys), x ≠ node := fun x hx heq =>
    (List.nodup_cons.mp hnodup).1 (heq ▸ hx)
  have hsub : ∀ x ∈ list :: (xs ++ ys), x ∈ m.live := fun x hx =>
    hlinked.live x (by simp only [List.mem_cons, List.mem_append] at hx ⊢; tauto)
  have hprevMem' : m.prev node ∈ list :: (xs ++ ys) := by
    rw [← List.cons_append]
    exact List.mem_append_left ys hprevMem
  have hnextMem' : m.next node ∈ list :: (xs ++ ys) := by
    simp only [List.mem_cons, List.mem_append, List.not_mem_nil, or_false] at hnextMem ⊢
    tauto
  have hlive : node ∈ m.live :=
    hlinked.live node (List.mem_cons_of_mem list (List.mem_append_right xs List.mem_cons_self))
  refine ⟨Function.update (Function.update m.next (m.prev node) (m.next node)) node node,
    Function.update (Function.update m.prev (m.next node) (m.prev node)) node node, ?_, ?_, ?_, ?_⟩
  · have hempty : xs ++ node :: ys ≠ [] :=
      List.append_ne_nil_of_right_ne_nil xs (List.cons_ne_nil _ _)
    simp only [listRemove, listIsEmpty_eq hlinked, ok_bind, hempty, decide_false,
      Bool.false_eq_true, if_false, Memory.readPrev_of_mem, Memory.readNext_of_mem,
      Memory.writeNext_of_mem, Memory.writePrev_of_mem, hlive, hsub _ hprevMem', hsub _ hnextMem']
  · refine hring.remove ?_ ?_ ?_ ?_
    · rw [Function.update_of_ne (hother _ hprevMem'), Function.update_self]
    · rw [Function.update_of_ne (hother _ hnextMem'), Function.update_self]
    · intro x hx hx'
      rw [Function.update_of_ne (hother x hx), Function.update_of_ne hx']
    · intro x hx hx'
      rw [Function.update_of_ne (hother x hx), Function.update_of_ne hx']
  · exact Function.update_self _ _ _
  · exact Function.update_self _ _ _

end CodeSlices.MultiThreadQueue
