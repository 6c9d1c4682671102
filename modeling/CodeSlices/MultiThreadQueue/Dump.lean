import Mathlib.Order.Filter.AtTopBot.Basic
import Mathlib.Tactic.Ring
import CodeSlices.Lib.Logged
import CodeSlices.MultiThreadQueue.List

/-!
# The list as a sequence

`list_dump` of `c/multi-thread-queue/list.c`, whose calls of `dump_func` are the log of the run, and
what the operations of the list do to the sequence it represents. The function that is called does
not touch the list.
-/

namespace CodeSlices.MultiThreadQueue

open CodeSlices.Ring CodeSlices.Logged Filter

inductive DumpFault
  | access (fault : Fault)
  | overflow

def access {α : Type} : Except Fault α → Logged Addr DumpFault α
  | .ok a => return a
  | .error fault => throw (.access fault)

def listDumpLoop (m : Memory) (stop : Addr) : Nat → Addr → Int → Logged Addr DumpFault Int
  | 0, _, _ => throw (.access .outOfFuel)
  | fuel + 1, head, count => do
      let data ← access (m.readData head)
      emit data
      let head ← access (m.readNext head)
      if count + 1 < 2 ^ 31 then
        let count := count + 1
        if head ≠ stop then
          listDumpLoop m stop fuel head count
        else
          return count
      else
        throw .overflow

def listDump (m : Memory) (list : Addr) (fuel : Nat) : Logged Addr DumpFault Int := do
  if ← access (listIsEmpty m list) then
    return 0
  else
    let head ← access (m.readNext list)
    listDumpLoop m list fuel head 0

variable {m : Memory} {list node : Addr} {xs ys : List Addr} {fuel : Nat} {count : Int}

/-- What the loop does after it called the function on a node. -/
def listDumpNext (m : Memory) (stop : Addr) (fuel : Nat) (head : Addr) (count : Int) :
    Logged Addr DumpFault Int :=
  if count + 1 < 2 ^ 31 then
    if head ≠ stop then listDumpLoop m stop fuel head (count + 1) else return count + 1
  else throw .overflow

theorem listDumpLoop_round (hlive : node ∈ m.live) :
    listDumpLoop m list (fuel + 1) node count = emit (m.data node) >>= fun _ =>
      listDumpNext m list fuel (m.next node) count := by
  unfold listDumpLoop
  rw [Memory.readData_of_mem hlive, Memory.readNext_of_mem hlive]
  rfl

/-- From a node of the list on, the loop calls the function on what is left of it. -/
theorem yields_listDumpLoop (hpath : Path m.next m.prev node xs list)
    (hne : ∀ x ∈ xs, x ≠ list) (hlive : ∀ x ∈ node :: xs, x ∈ m.live)
    (hcount : count + xs.length + 1 < 2 ^ 31) (hfuel : xs.length < fuel) :
    Yields (listDumpLoop m list fuel node count) ((node :: xs).map m.data)
      (count + xs.length + 1) := by
  induction xs generalizing node count fuel with
  | nil =>
      obtain ⟨fuel, rfl⟩ := Nat.exists_eq_succ_of_ne_zero (Nat.ne_of_gt hfuel)
      rw [List.length_nil, Int.natCast_zero, Int.add_zero] at hcount ⊢
      rw [listDumpLoop_round (hlive node List.mem_cons_self)]
      refine (Yields.emit _).bind ?_
      rw [listDumpNext, if_pos hcount, if_neg (not_not_intro hpath.1)]
      exact Yields.pure _
  | cons x xs ih =>
      obtain ⟨hnext, -, hrest⟩ := hpath
      rw [List.length_cons] at hcount hfuel ⊢
      obtain ⟨fuel, rfl⟩ := Nat.exists_eq_succ_of_ne_zero (by omega : fuel ≠ 0)
      rw [listDumpLoop_round (hlive node List.mem_cons_self), hnext]
      refine (Yields.emit (m.data node)).bind ?_
      rw [listDumpNext, if_pos (by omega), if_pos (hne x List.mem_cons_self),
        show count + (xs.length + 1 : Nat) + 1 = count + 1 + xs.length + 1 by omega]
      refine ih hrest ?_ ?_ (by omega) (by omega)
      · exact fun y hy => hne y (List.mem_cons_of_mem x hy)
      · exact fun y hy => hlive y (List.mem_cons_of_mem node hy)

theorem fails_listDumpLoop (hpath : Path m.next m.prev node xs list)
    (hne : ∀ x ∈ xs, x ≠ list) (hlive : ∀ x ∈ node :: xs, x ∈ m.live)
    (hcount : 2 ^ 31 ≤ count + xs.length + 1) (hfuel : xs.length < fuel) :
    Fails (listDumpLoop m list fuel node count) DumpFault.overflow := by
  induction xs generalizing node count fuel with
  | nil =>
      obtain ⟨fuel, rfl⟩ := Nat.exists_eq_succ_of_ne_zero (Nat.ne_of_gt hfuel)
      rw [List.length_nil, Int.natCast_zero, Int.add_zero] at hcount
      rw [listDumpLoop_round (hlive node List.mem_cons_self)]
      refine (Yields.emit _).bind_fails ?_
      rw [listDumpNext, if_neg (Int.not_lt.mpr hcount)]
      exact Fails.throw _
  | cons x xs ih =>
      obtain ⟨hnext, -, hrest⟩ := hpath
      rw [List.length_cons] at hcount hfuel
      obtain ⟨fuel, rfl⟩ := Nat.exists_eq_succ_of_ne_zero (by omega : fuel ≠ 0)
      rw [listDumpLoop_round (hlive node List.mem_cons_self), hnext]
      refine (Yields.emit _).bind_fails ?_
      unfold listDumpNext
      split_ifs with hlt hlast
      · refine ih hrest ?_ ?_ (by omega) (by omega)
        · exact fun y hy => hne y (List.mem_cons_of_mem x hy)
        · exact fun y hy => hlive y (List.mem_cons_of_mem node hy)
      · exact absurd (not_not.mp hlast) (hne x List.mem_cons_self)
      · exact Fails.throw _

theorem listDump_nil (hlinked : Linked m list []) : listDump m list fuel = pure 0 := by
  unfold listDump
  rw [listIsEmpty_eq hlinked]
  rfl

theorem listDump_cons {x : Addr} (hlinked : Linked m list (x :: xs)) :
    listDump m list fuel = listDumpLoop m list fuel x 0 := by
  unfold listDump
  rw [listIsEmpty_eq hlinked, Memory.readNext_of_mem hlinked.list_live, hlinked.ring.next_head,
    decide_eq_false (List.cons_ne_nil x xs)]
  rfl

theorem Linked.ne_of_mem (hlinked : Linked m list xs) : ∀ x ∈ xs, x ≠ list := by
  rintro x hx rfl
  exact (List.nodup_cons.mp hlinked.ring.nodup).1 hx

theorem yields_listDump (hlinked : Linked m list xs) (hlen : xs.length < 2 ^ 31)
    (hfuel : xs.length ≤ fuel) :
    Yields (listDump m list fuel) (xs.map m.data) xs.length := by
  cases xs with
  | nil =>
      rw [listDump_nil hlinked]
      exact Yields.pure 0
  | cons x xs =>
      rw [List.length_cons] at hlen hfuel
      rw [listDump_cons hlinked, List.length_cons,
        show ((xs.length + 1 : Nat) : Int) = 0 + xs.length + 1 by omega]
      refine yields_listDumpLoop hlinked.ring.path.2.2 ?_ ?_ (by omega) (by omega)
      · exact fun y hy => hlinked.ne_of_mem y (List.mem_cons_of_mem x hy)
      · exact fun y hy => hlinked.live y (List.mem_cons_of_mem list hy)

/-- A list of 2^31 nodes is more than an `int` counts. -/
theorem fails_listDump (hlinked : Linked m list xs) (hlen : 2 ^ 31 ≤ xs.length)
    (hfuel : xs.length ≤ fuel) : Fails (listDump m list fuel) DumpFault.overflow := by
  cases xs with
  | nil => simp at hlen
  | cons x xs =>
      rw [List.length_cons] at hlen hfuel
      rw [listDump_cons hlinked]
      refine fails_listDumpLoop hlinked.ring.path.2.2 ?_ ?_ (by omega) (by omega)
      · exact fun y hy => hlinked.ne_of_mem y (List.mem_cons_of_mem x hy)
      · exact fun y hy => hlinked.live y (List.mem_cons_of_mem list hy)

/-! ### The list as a sequence -/

/-- Removing a node that is in no list leaves everything as it was. -/
theorem listRemove_of_self (hlinked : Linked m list xs) (hlive : node ∈ m.live)
    (hnext : m.next node = node) (hprev : m.prev node = node) :
    listRemove m list node = .ok (node, m) := by
  unfold listRemove
  rw [listIsEmpty_eq hlinked, ok_bind]
  split_ifs
  · rfl
  · have hupdate : Function.update m.next node node = m.next := by
      rw [Function.update_eq_self_iff, hnext]
    have hupdate' : Function.update m.prev node node = m.prev := by
      rw [Function.update_eq_self_iff, hprev]
    simp only [Memory.readPrev_of_mem, Memory.readNext_of_mem, Memory.writeNext_of_mem,
      Memory.writePrev_of_mem, hlive, hnext, hprev, ok_bind, hupdate, hupdate']

/-- The operations keep a list that represents a sequence of nodes, and do to the sequence what
they are for. -/
theorem list_operations (m : Memory) (list : Addr) (xs : List Addr) (hlinked : Linked m list xs) :
    (∀ node ∈ m.live, node ∉ list :: xs → ∃ m', listAdd m list node = .ok (list, m') ∧
      Linked m' list (xs ++ [node]) ∧ m'.data = m.data) ∧
    (∀ before node after, xs = before ++ node :: after →
      ∃ m', listRemove m list node = .ok (node, m') ∧ Linked m' list (before ++ after) ∧
        m'.data = m.data ∧ m'.next node = node ∧ m'.prev node = node) ∧
    (∀ node ∈ m.live, node ∉ list :: xs → m.next node = node → m.prev node = node →
      listRemove m list node = .ok (node, m)) ∧
    (xs.length < 2 ^ 31 → ∀ᶠ fuel in atTop,
      Yields (listDump m list fuel) (xs.map m.data) xs.length) := by
  refine ⟨?_, ?_, ?_, ?_⟩
  · intro node hlive hnode
    obtain ⟨next, prev, hadd, hring⟩ := listAdd_eq hlinked hnode hlive
    refine ⟨_, hadd, ⟨hring, fun p hp => ?_⟩, rfl⟩
    rw [← List.cons_append, List.mem_append, List.mem_singleton] at hp
    rcases hp with hp | rfl
    · exact hlinked.live p hp
    · exact hlive
  · rintro before node after rfl
    obtain ⟨next, prev, hremove, hring, hnext, hprev⟩ := listRemove_eq hlinked
    refine ⟨_, hremove, ⟨hring, fun p hp => hlinked.live p ?_⟩, rfl, hnext, hprev⟩
    simp only [List.mem_cons, List.mem_append] at hp ⊢
    tauto
  · intro node hlive _ hnext hprev
    exact listRemove_of_self hlinked hlive hnext hprev
  · intro hlen
    filter_upwards [eventually_ge_atTop xs.length] with fuel hfuel
    exact yields_listDump hlinked hlen hfuel

/-- A sentinel at 1 with nodes at 2, 3 and 4, and a node at 5 that is in no list. -/
def threeNodes : Memory where
  live := {1, 2, 3, 4, 5}
  prev p := if p = 5 then 5 else (p + 2) % 4 + 1
  next p := if p = 5 then 5 else p % 4 + 1
  data p := p + 10
  slot _ := NULL
  allocated := [5, 4, 3, 2]
  freed := []

theorem threeNodes_linked : Linked threeNodes 1 [2, 3, 4] where
  ring := ⟨by decide, rfl, rfl, rfl, rfl, rfl, rfl, rfl, rfl⟩
  live := by decide

theorem threeNodes_operations :
    (∃ m', listAdd threeNodes 1 5 = .ok (1, m') ∧ Linked m' 1 [2, 3, 4, 5]) ∧
      (∃ m', listRemove threeNodes 1 3 = .ok (3, m') ∧ Linked m' 1 [2, 4]) ∧
      listRemove threeNodes 1 5 = .ok (5, threeNodes) ∧
      ∀ᶠ fuel in atTop, Yields (listDump threeNodes 1 fuel) [12, 13, 14] 3 := by
  obtain ⟨hadd, hremove, hself, hdump⟩ :=
    list_operations threeNodes 1 [2, 3, 4] threeNodes_linked
  obtain ⟨m₁, hadd, hlinked₁, -⟩ := hadd 5 (by decide) (by decide)
  obtain ⟨m₂, hremove, hlinked₂, -⟩ := hremove [2] 3 [4] rfl
  exact ⟨⟨m₁, hadd, hlinked₁⟩, ⟨m₂, hremove, hlinked₂⟩,
    hself 5 (by decide) (by decide) rfl rfl, hdump (by decide)⟩

/-- There are lists of every length. -/
theorem exists_linked (n k : Nat) :
    ∃ m : Memory, m.live = Finset.range (n + k + 2) ∧ Linked m 1 (List.range' 2 n) := by
  induction n generalizing k with
  | zero =>
      refine ⟨⟨Finset.range (0 + k + 2), id, id, id, id, [], []⟩, rfl, ?_, ?_⟩
      · exact isRing_nil.mpr ⟨rfl, rfl⟩
      · intro p hp
        rw [List.range'_zero, List.mem_singleton] at hp
        rw [hp, Finset.mem_range]
        omega
  | succ n ih =>
      obtain ⟨m, hlive, hlinked⟩ := ih (k + 1)
      have hnode : n + 2 ∉ 1 :: List.range' 2 n := by
        rw [List.mem_cons, List.mem_range'_1]
        omega
      have hmem : n + 2 ∈ m.live := by
        rw [hlive, Finset.mem_range]
        omega
      obtain ⟨next, prev, -, hring⟩ := listAdd_eq hlinked hnode hmem
      refine ⟨{ m with next := next, prev := prev }, ?_, ?_, ?_⟩
      · rw [hlive, Nat.add_right_comm n 1 k, Nat.add_assoc n k 1]
      · rwa [List.range'_1_concat, Nat.add_comm 2 n]
      · intro p hp
        rw [hlive, Finset.mem_range]
        rw [List.mem_cons, List.mem_range'_1] at hp
        rcases hp with rfl | ⟨-, hlt⟩
        · omega
        · omega

theorem listDump_too_long : ∃ m : Memory, Linked m 1 (List.range' 2 (2 ^ 31)) ∧
    ¬ ∀ᶠ fuel in atTop, Yields (listDump m 1 fuel) ((List.range' 2 (2 ^ 31)).map m.data)
      (List.range' 2 (2 ^ 31)).length := by
  obtain ⟨m, -, hlinked⟩ := exists_linked (2 ^ 31) 0
  refine ⟨m, hlinked, fun hdump => ?_⟩
  obtain ⟨fuel, hfuel, hyields⟩ :=
    ((eventually_ge_atTop (List.range' 2 (2 ^ 31)).length).and hdump).exists
  refine hyields.not_fails (fails_listDump hlinked ?_ hfuel)
  rw [List.length_range']

end CodeSlices.MultiThreadQueue
