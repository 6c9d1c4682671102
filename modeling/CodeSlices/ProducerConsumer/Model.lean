import Mathlib.Algebra.BigOperators.Fin
import CodeSlices.Lib.Transition
import CodeSlices.Lib.WaitSet

/-!
# The producer and its consumers

`c/producer-consumer/main.c`: one producer pushes `data_nums` items on a stack of `BUFFER_MAX` cells
and several consumers pop them, all under `c_lock` and with the one condition variable `c_cond`. The
atomic steps are the critical sections. `int` and `long int` are integers; the array is a vector of
`BUFFER_MAX` cells, and an access outside it is an error of the section.
-/

namespace CodeSlices.ProducerConsumer

open CodeSlices.Transition CodeSlices.WaitSet

/-- The globals that `c_lock` protects, but for the wait set of `c_cond`. -/
structure Globals (bufferMax : Nat) where
  buffer : Vector Int bufferMax
  current : Int
  endFlag : Bool

inductive Fault
  | outOfBounds (index : Int)

variable {bufferMax : Nat}

def Globals.load (g : Globals bufferMax) (index : Int) : Except Fault Int :=
  if h : 0 ≤ index ∧ index.toNat < bufferMax then .ok (g.buffer.get ⟨index.toNat, h.2⟩)
  else .error (.outOfBounds index)

def Globals.store (g : Globals bufferMax) (index value : Int) : Except Fault (Globals bufferMax) :=
  if h : 0 ≤ index ∧ index.toNat < bufferMax then
    .ok { g with buffer := g.buffer.set index.toNat value h.2 }
  else .error (.outOfBounds index)

def bufferIsFull (g : Globals bufferMax) : Bool := g.current == bufferMax

def bufferIsEmpty (g : Globals bufferMax) : Bool := g.current == 0

/-- How a pass through the loop body leaves the critical section: by `break`, by blocking in
`pthread_cond_wait`, or by `pthread_cond_signal` and `pthread_mutex_unlock`. -/
inductive Action
  | leave
  | wait
  | signal

/-- One pass through the loop of `consumer_thread`, with the debug print that reads the top item. -/
def consumerThread (g : Globals bufferMax) (score : Int) :
    Except Fault (Globals bufferMax × Int × Action) :=
  if g.endFlag then
    .ok (g, score, .leave)
  else if bufferIsEmpty g then
    .ok (g, score, .wait)
  else do
    let _ ← g.load (g.current - 1)
    .ok ({ g with current := g.current - 1 }, score + 1, .signal)

/-- One pass through the loop of `producer_thread`, after its test `nums > 0`. -/
def producerThread (g : Globals bufferMax) (nums : Int) :
    Except Fault (Globals bufferMax × Int × Action) :=
  if bufferIsFull g then
    .ok (g, nums, .wait)
  else do
    let g ← g.store g.current nums
    .ok ({ g with current := g.current + 1 }, nums - 1, .signal)

/-! ### The program -/

inductive Thread (threadNums : Nat)
  | producer
  | consumer (i : Fin threadNums)
  deriving DecidableEq

/-- Where a thread stands between two critical sections. In `condWait` it is blocked while it is in
the wait set of `c_cond`, and otherwise on its way out of `pthread_cond_wait`. -/
inductive Pc
  | unborn
  | loop
  | condWait
  | exited
  deriving DecidableEq

inductive MainPc
  | createConsumer (i : Nat)
  | createProducer
  | joinProducer
  | setEnd
  | joinConsumer (i : Nat)
  | returned
  deriving DecidableEq

structure State (bufferMax threadNums : Nat) where
  globals : Globals bufferMax
  cond : Finset (Thread threadNums)
  pc : Thread threadNums → Pc
  nums : Int
  score : Fin threadNums → Int
  main : MainPc

variable {threadNums : Nat}

def initial (bufferMax threadNums : Nat) (dataNums : Int) : State bufferMax threadNums where
  globals := { buffer := Vector.replicate bufferMax 0, current := 0, endFlag := false }
  cond := ∅
  pc := fun _ => .unborn
  nums := dataNums
  score := fun _ => 0
  main := .createConsumer 0

/-- The atomic steps. `woken` is the waiter that the signal of the section takes out. -/
inductive Event (threadNums : Nat)
  | critical (t : Thread threadNums) (woken : Option (Thread threadNums))
  | resume (t : Thread threadNums)
  | spurious (t : Thread threadNums)
  | finish
  | main
  deriving DecidableEq

def State.act (s : State bufferMax threadNums) (t : Thread threadNums)
    (woken : Option (Thread threadNums)) : Action → Option (State bufferMax threadNums)
  | .leave => some { s with pc := Function.update s.pc t .exited }
  | .wait => some { s with cond := insert t s.cond, pc := Function.update s.pc t .condWait }
  | .signal => (signal s.cond woken).map fun cond => { s with cond := cond }

def criticalStep (s : State bufferMax threadNums) (woken : Option (Thread threadNums)) :
    Thread threadNums → Option (State bufferMax threadNums)
  | .producer =>
      if s.pc .producer = .loop ∧ 0 < s.nums then
        match producerThread s.globals s.nums with
        | .ok (g, nums, action) => { s with globals := g, nums := nums }.act .producer woken action
        | .error _ => none
      else none
  | .consumer i =>
      if s.pc (.consumer i) = .loop then
        match consumerThread s.globals (s.score i) with
        | .ok (g, score, action) =>
            { s with globals := g, score := Function.update s.score i score }.act (.consumer i)
              woken action
        | .error _ => none
      else none

def mainStep (s : State bufferMax threadNums) : Option (State bufferMax threadNums) :=
  match s.main with
  | .createConsumer i =>
      if h : i < threadNums then
        some { s with
          pc := Function.update s.pc (.consumer ⟨i, h⟩) .loop
          main := .createConsumer (i + 1) }
      else some { s with main := .createProducer }
  | .createProducer =>
      some { s with pc := Function.update s.pc .producer .loop, main := .joinProducer }
  | .joinProducer => if s.pc .producer = .exited then some { s with main := .setEnd } else none
  | .setEnd =>
      some {
        s with
        globals := { s.globals with endFlag := true }
        cond := ∅
        main := .joinConsumer 0 }
  | .joinConsumer i =>
      if h : i < threadNums then
        if s.pc (.consumer ⟨i, h⟩) = .exited then some { s with main := .joinConsumer (i + 1) }
        else none
      else some { s with main := .returned }
  | .returned => none

def step (s : State bufferMax threadNums) : Event threadNums → Option (State bufferMax threadNums)
  | .critical t woken => criticalStep s woken t
  | .resume t =>
      if s.pc t = .condWait ∧ t ∉ s.cond then
        some { s with pc := Function.update s.pc t .loop }
      else none
  | .spurious t => if t ∈ s.cond then some { s with cond := s.cond.erase t } else none
  | .finish =>
      if s.pc .producer = .loop ∧ s.nums ≤ 0 then
        some { s with pc := Function.update s.pc .producer .exited }
      else none
  | .main => mainStep s

end CodeSlices.ProducerConsumer
