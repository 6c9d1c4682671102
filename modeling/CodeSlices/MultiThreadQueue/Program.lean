import CodeSlices.MultiThreadQueue.Run

/-!
# The test program of the queue

`c/multi-thread-queue/main.c`: `main` fills the queue and creates the threads; every consumer counts
itself in `g_thread_count`, waits on `g_cond` and then empties the queue; the provider polls the
counter and broadcasts. The sections under `t_lock` are one step, and so is the provider's broadcast
under `g_lock`; a consumer takes `g_lock` in one step and enters `pthread_cond_wait` in the next.
-/

namespace CodeSlices.MultiThreadQueue.Program

open CodeSlices.Transition

/-- The arguments of the program and the places of its objects. -/
structure Setup (threadNums : Nat) where
  gQueue : Addr
  gQueue_ne_null : gQueue ≠ NULL
  nodeNums : Nat
  value : Fin threadNums → Addr

/-- Where a consumer stands: `wait` owns `g_lock` and is about to call `pthread_cond_wait`,
`blocked` is in the wait set of `g_cond`, and `woken` was taken out of it and has to get `g_lock`
back. -/
inductive ConsumerPc
  | unborn
  | count
  | lock
  | wait
  | blocked
  | woken
  | loop
  | exited
  deriving DecidableEq

inductive ProviderPc
  | unborn
  | poll
  | broadcast
  | exited
  deriving DecidableEq

inductive MainPc
  | createProvider
  | init
  | enqueue (i : Nat)
  | createConsumer (i : Nat)
  | joinProvider
  | joinConsumer (i : Nat)
  | clean
  | returned
  deriving DecidableEq

structure State (threadNums : Nat) where
  mem : Memory
  gThreadCount : Nat
  /-- The consumer that owns `g_lock` between two steps. -/
  gLock : Option (Fin threadNums)
  consumer : Fin threadNums → ConsumerPc
  count : Fin threadNums → Nat
  provider : ProviderPc
  main : MainPc

variable {threadNums : Nat} (setup : Setup threadNums)

def initial (slot : Addr → Addr) : State threadNums where
  mem := startMemory setup.gQueue slot
  gThreadCount := 0
  gLock := none
  consumer := fun _ => .unborn
  count := fun _ => 0
  provider := .unborn
  main := .createProvider

/-- The thread that takes a step; `block` is what `malloc` answers in an enqueue of `main`. -/
inductive Event (threadNums : Nat)
  | main (block : Option Addr)
  | provider
  | consumer (i : Fin threadNums)
  deriving DecidableEq

/-- What `pthread_cond_broadcast` does to a consumer. -/
def ConsumerPc.wake : ConsumerPc → ConsumerPc
  | .blocked => .woken
  | pc => pc

def consumerThread (s : State threadNums) (i : Fin threadNums) : Option (State threadNums) :=
  match s.consumer i with
  | .count => some { s with
      gThreadCount := s.gThreadCount + 1
      consumer := Function.update s.consumer i .lock }
  | .lock =>
      if s.gLock = none then
        some { s with gLock := some i, consumer := Function.update s.consumer i .wait }
      else none
  | .wait => some { s with gLock := none, consumer := Function.update s.consumer i .blocked }
  | .woken =>
      if s.gLock = none then
        some { s with consumer := Function.update s.consumer i .loop }
      else none
  | .loop =>
      match qDequeue s.mem setup.gQueue (setup.value i) with
      | .ok (ret, mem) => some { s with
          mem := mem
          count := Function.update s.count i (s.count i + 1)
          consumer := Function.update s.consumer i (if ret then .loop else .exited) }
      | .error _ => none
  | _ => none

def providerThread (s : State threadNums) : Option (State threadNums) :=
  match s.provider with
  | .poll => some { s with provider := if s.gThreadCount < threadNums then .poll else .broadcast }
  | .broadcast =>
      if s.gLock = none then
        some { s with consumer := fun i => (s.consumer i).wake, provider := .exited }
      else none
  | _ => none

/-- `q_clean` is one step for each pass through its loop. -/
def mainThread (s : State threadNums) (block : Option Addr) : Option (State threadNums) :=
  match s.main with
  | .createProvider => some { s with provider := .poll, main := .init }
  | .init =>
      match qInit s.mem setup.gQueue with
      | .ok mem => some { s with mem := mem, main := .enqueue 0 }
      | .error _ => none
  | .enqueue i =>
      if i < setup.nodeNums then
        if s.mem.Fresh block then
          match qEnqueue s.mem setup.gQueue block i with
          | .ok (_, mem) => some { s with mem := mem, main := .enqueue (i + 1) }
          | .error _ => none
        else none
      else some { s with main := .createConsumer 0 }
  | .createConsumer i =>
      if h : i < threadNums then
        some { s with
          consumer := Function.update s.consumer ⟨i, h⟩ .count
          main := .createConsumer (i + 1) }
      else some { s with main := .joinProvider }
  | .joinProvider => if s.provider = .exited then some { s with main := .joinConsumer 0 } else none
  | .joinConsumer i =>
      if h : i < threadNums then
        if s.consumer ⟨i, h⟩ = .exited then some { s with main := .joinConsumer (i + 1) } else none
      else some { s with main := .clean }
  | .clean =>
      match qDequeue s.mem setup.gQueue NULL with
      | .ok (ret, mem) => some { s with mem := mem, main := if ret then .clean else .returned }
      | .error _ => none
  | .returned => none

def step (s : State threadNums) : Event threadNums → Option (State threadNums)
  | .main block => mainThread setup s block
  | .provider => providerThread s
  | .consumer i => consumerThread setup s i

/-! ### What a step can do -/

inductive Move (s : State threadNums) : Event threadNums → State threadNums → Prop
  | createProvider (block : Option Addr) (hmain : s.main = .createProvider) :
      Move s (.main block) { s with provider := .poll, main := .init }
  | init (block : Option Addr) (mem : Memory) (hmain : s.main = .init)
      (hinit : qInit s.mem setup.gQueue = .ok mem) :
      Move s (.main block) { s with mem := mem, main := .enqueue 0 }
  | enqueue (block : Option Addr) (i : Nat) (ret : Bool) (mem : Memory)
      (hmain : s.main = .enqueue i)
      (hlt : i < setup.nodeNums) (hfresh : s.mem.Fresh block)
      (henqueue : qEnqueue s.mem setup.gQueue block i = .ok (ret, mem)) :
      Move s (.main block) { s with mem := mem, main := .enqueue (i + 1) }
  | enqueued (block : Option Addr) (i : Nat) (hmain : s.main = .enqueue i)
      (hdone : setup.nodeNums ≤ i) : Move s (.main block) { s with main := .createConsumer 0 }
  | createConsumer (block : Option Addr) (i : Fin threadNums) (hmain : s.main = .createConsumer i) :
      Move s (.main block) { s with
        consumer := Function.update s.consumer i .count
        main := .createConsumer (i + 1) }
  | consumersCreated (block : Option Addr) (i : Nat) (hmain : s.main = .createConsumer i)
      (hdone : threadNums ≤ i) : Move s (.main block) { s with main := .joinProvider }
  | joinProvider (block : Option Addr) (hmain : s.main = .joinProvider)
      (hprovider : s.provider = .exited) : Move s (.main block) { s with main := .joinConsumer 0 }
  | joinConsumer (block : Option Addr) (i : Fin threadNums) (hmain : s.main = .joinConsumer i)
      (hexited : s.consumer i = .exited) :
      Move s (.main block) { s with main := .joinConsumer (i + 1) }
  | consumersJoined (block : Option Addr) (i : Nat) (hmain : s.main = .joinConsumer i)
      (hdone : threadNums ≤ i) : Move s (.main block) { s with main := .clean }
  | clean (block : Option Addr) (ret : Bool) (mem : Memory) (hmain : s.main = .clean)
      (hdequeue : qDequeue s.mem setup.gQueue NULL = .ok (ret, mem)) :
      Move s (.main block) { s with mem := mem, main := if ret then .clean else .returned }
  | poll (hprovider : s.provider = .poll) :
      Move s .provider { s with
        provider := if s.gThreadCount < threadNums then .poll else .broadcast }
  | broadcast (hprovider : s.provider = .broadcast) (hlock : s.gLock = none) :
      Move s .provider { s with consumer := fun i => (s.consumer i).wake, provider := .exited }
  | count (i : Fin threadNums) (hpc : s.consumer i = .count) :
      Move s (.consumer i) { s with
        gThreadCount := s.gThreadCount + 1
        consumer := Function.update s.consumer i .lock }
  | lock (i : Fin threadNums) (hpc : s.consumer i = .lock) (hlock : s.gLock = none) :
      Move s (.consumer i) { s with
        gLock := some i
        consumer := Function.update s.consumer i .wait }
  | wait (i : Fin threadNums) (hpc : s.consumer i = .wait) :
      Move s (.consumer i) { s with
        gLock := none
        consumer := Function.update s.consumer i .blocked }
  | resume (i : Fin threadNums) (hpc : s.consumer i = .woken) (hlock : s.gLock = none) :
      Move s (.consumer i) { s with consumer := Function.update s.consumer i .loop }
  | dequeue (i : Fin threadNums) (ret : Bool) (mem : Memory) (hpc : s.consumer i = .loop)
      (hdequeue : qDequeue s.mem setup.gQueue (setup.value i) = .ok (ret, mem)) :
      Move s (.consumer i) { s with
        mem := mem
        count := Function.update s.count i (s.count i + 1)
        consumer := Function.update s.consumer i (if ret then .loop else .exited) }

variable {setup} {s t : State threadNums} {e : Event threadNums}

theorem move_of_consumer {i : Fin threadNums} (hstep : consumerThread setup s i = some t) :
    Move setup s (.consumer i) t := by
  unfold consumerThread at hstep
  split at hstep
  · obtain rfl := Option.some.inj hstep
    exact .count i ‹_›
  · split at hstep
    · obtain rfl := Option.some.inj hstep
      exact .lock i ‹_› ‹_›
    · cases hstep
  · obtain rfl := Option.some.inj hstep
    exact .wait i ‹_›
  · split at hstep
    · obtain rfl := Option.some.inj hstep
      exact .resume i ‹_› ‹_›
    · cases hstep
  · split at hstep
    · obtain rfl := Option.some.inj hstep
      exact .dequeue i _ _ ‹_› ‹_›
    · cases hstep
  · cases hstep

theorem move_of_provider (hstep : providerThread s = some t) : Move setup s .provider t := by
  unfold providerThread at hstep
  split at hstep
  · obtain rfl := Option.some.inj hstep
    exact .poll ‹_›
  · split at hstep
    · obtain rfl := Option.some.inj hstep
      exact .broadcast ‹_› ‹_›
    · cases hstep
  · cases hstep

theorem move_of_main {block : Option Addr} (hstep : mainThread setup s block = some t) :
    Move setup s (.main block) t := by
  cases hmain : s.main with
  | createProvider =>
      simp only [mainThread, hmain] at hstep
      obtain rfl := Option.some.inj hstep
      exact .createProvider block hmain
  | init =>
      simp only [mainThread, hmain] at hstep
      split at hstep
      · obtain rfl := Option.some.inj hstep
        exact .init block _ hmain ‹_›
      · cases hstep
  | enqueue i =>
      simp only [mainThread, hmain] at hstep
      split at hstep
      · split at hstep
        · split at hstep
          · obtain rfl := Option.some.inj hstep
            exact .enqueue block i _ _ hmain ‹_› ‹_› ‹_›
          · cases hstep
        · cases hstep
      · obtain rfl := Option.some.inj hstep
        exact .enqueued block i hmain (by omega)
  | createConsumer i =>
      simp only [mainThread, hmain] at hstep
      split at hstep
      · rename_i hlt
        obtain rfl := Option.some.inj hstep
        exact .createConsumer block ⟨i, hlt⟩ hmain
      · obtain rfl := Option.some.inj hstep
        exact .consumersCreated block i hmain (by omega)
  | joinProvider =>
      simp only [mainThread, hmain] at hstep
      split at hstep
      · obtain rfl := Option.some.inj hstep
        exact .joinProvider block hmain ‹_›
      · cases hstep
  | joinConsumer i =>
      simp only [mainThread, hmain] at hstep
      split at hstep
      · rename_i hlt
        split at hstep
        · obtain rfl := Option.some.inj hstep
          exact .joinConsumer block ⟨i, hlt⟩ hmain ‹_›
        · cases hstep
      · obtain rfl := Option.some.inj hstep
        exact .consumersJoined block i hmain (by omega)
  | clean =>
      simp only [mainThread, hmain] at hstep
      split at hstep
      · obtain rfl := Option.some.inj hstep
        exact .clean block _ _ hmain ‹_›
      · cases hstep
  | returned =>
      simp only [mainThread, hmain] at hstep
      cases hstep

theorem move_of_step (hstep : step setup s e = some t) : Move setup s e t := by
  cases e with
  | main block => exact move_of_main hstep
  | provider => exact move_of_provider hstep
  | consumer i => exact move_of_consumer hstep

end CodeSlices.MultiThreadQueue.Program
