import Mathlib.Data.Finset.Card
import CodeSlices.Lib.Except

/-!
# The memory of the queue program

Every address has the three cells of a `list_t`, which may be accessed while the node there is live.
`slot` holds the objects of the callers that results are returned through. `malloc` hands out blocks
that were never handed out before, so an access through a stale pointer is always an error; which
one it hands out, or that it fails, is the allocator's choice.
-/

namespace CodeSlices.MultiThreadQueue

abbrev Addr := Nat

def NULL : Addr := 0

inductive Fault
  | badAccess (p : Addr)
  | badFree (p : Addr)
  | outOfFuel

structure Memory where
  live : Finset Addr
  prev : Addr → Addr
  next : Addr → Addr
  data : Addr → Addr
  slot : Addr → Addr
  /-- The results of the calls of `malloc` that did not fail, in order. -/
  allocated : List Addr
  /-- The arguments of the calls of `free`, in order. -/
  freed : List Addr

namespace Memory

variable (m : Memory) (p v : Addr)

def readPrev : Except Fault Addr := if p ∈ m.live then .ok (m.prev p) else .error (.badAccess p)

def readNext : Except Fault Addr := if p ∈ m.live then .ok (m.next p) else .error (.badAccess p)

def readData : Except Fault Addr := if p ∈ m.live then .ok (m.data p) else .error (.badAccess p)

def writePrev : Except Fault Memory :=
  if p ∈ m.live then .ok { m with prev := Function.update m.prev p v } else .error (.badAccess p)

def writeNext : Except Fault Memory :=
  if p ∈ m.live then .ok { m with next := Function.update m.next p v } else .error (.badAccess p)

def writeData : Except Fault Memory :=
  if p ∈ m.live then .ok { m with data := Function.update m.data p v } else .error (.badAccess p)

/-- The blocks `malloc` may hand out. -/
def Fresh : Option Addr → Prop
  | none => True
  | some p => p ≠ NULL ∧ p ∉ m.live ∧ p ∉ m.allocated

instance : DecidablePred m.Fresh
  | none => isTrue trivial
  | some p => inferInstanceAs (Decidable (p ≠ NULL ∧ p ∉ m.live ∧ p ∉ m.allocated))

/-- `malloc`, with the allocator's choice of a block, or `none` when it has no memory. -/
def malloc : Option Addr → Addr × Memory
  | none => (NULL, m)
  | some p => (p, { m with live := insert p m.live, allocated := m.allocated ++ [p] })

def free : Except Fault Memory :=
  if p ∈ m.live ∧ p ∈ m.allocated then
    .ok { m with live := m.live.erase p, freed := m.freed ++ [p] }
  else .error (.badFree p)

variable {m p}

theorem readPrev_of_mem (hlive : p ∈ m.live) : m.readPrev p = .ok (m.prev p) := if_pos hlive

theorem readNext_of_mem (hlive : p ∈ m.live) : m.readNext p = .ok (m.next p) := if_pos hlive

theorem readData_of_mem (hlive : p ∈ m.live) : m.readData p = .ok (m.data p) := if_pos hlive

theorem writePrev_of_mem (hlive : p ∈ m.live) :
    m.writePrev p v = .ok { m with prev := Function.update m.prev p v } := if_pos hlive

theorem writeNext_of_mem (hlive : p ∈ m.live) :
    m.writeNext p v = .ok { m with next := Function.update m.next p v } := if_pos hlive

theorem writeData_of_mem (hlive : p ∈ m.live) :
    m.writeData p v = .ok { m with data := Function.update m.data p v } := if_pos hlive

theorem free_of_mem (hlive : p ∈ m.live) (hallocated : p ∈ m.allocated) :
    m.free p = .ok { m with live := m.live.erase p, freed := m.freed ++ [p] } :=
  if_pos ⟨hlive, hallocated⟩

end Memory

end CodeSlices.MultiThreadQueue
