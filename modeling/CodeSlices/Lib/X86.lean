import Mathlib.Data.List.Basic
import Mathlib.Logic.Function.Basic
import Mathlib.Logic.Relation
import CodeSlices.Lib.LittleEndian

/-!
# A few instructions of the 32-bit x86

Machines with five registers, the zero flag and a memory in which not every address is mapped. The
instructions of a program are numbered, and a jump names the number it goes to. `int $0x80` calls a
kernel that knows two calls, and any answer may be in `eax` after it: an error, or how much of what
it was asked to write it has written.
-/

namespace CodeSlices.X86

abbrev Address := BitVec 32

abbrev Memory := Address → Option UInt8

inductive Reg
  | eax
  | ebx
  | ecx
  | edx
  | esp

structure Registers where
  eax : BitVec 32
  ebx : BitVec 32
  ecx : BitVec 32
  edx : BitVec 32
  esp : BitVec 32

def Registers.get (regs : Registers) : Reg → BitVec 32
  | .eax => regs.eax
  | .ebx => regs.ebx
  | .ecx => regs.ecx
  | .edx => regs.edx
  | .esp => regs.esp

def Registers.set (regs : Registers) (v : BitVec 32) : Reg → Registers
  | .eax => { regs with eax := v }
  | .ebx => { regs with ebx := v }
  | .ecx => { regs with ecx := v }
  | .edx => { regs with edx := v }
  | .esp => { regs with esp := v }

/-- What the kernel is asked to do. -/
inductive Call
  | write (fd : BitVec 32) (bytes : List UInt8)
  | exit (status : BitVec 32)

/-- The instructions as an assembler writes them: the source comes first. -/
inductive Instr
  | popl (dst : Reg)
  | movl (src dst : Reg)
  | movlImm (value : BitVec 32) (dst : Reg)
  | movbLoad (base : Reg)
  | movbStore (value : UInt8) (displacement : BitVec 32) (base : Reg)
  | xorl (src dst : Reg)
  | inc (dst : Reg)
  | testl (src dst : Reg)
  | testAl
  | jz (target : Nat)
  | jnz (target : Nat)
  | jmp (target : Nat)
  | int80
  | ret

structure Machine where
  pc : Nat
  regs : Registers
  zero : Bool
  mem : Memory
  /-- The calls that were made, whatever came of them. -/
  calls : List Call
  status : Option (BitVec 32)

/-- `movb` into `al` leaves the other bytes of `eax`. -/
def setAl (eax : BitVec 32) (byte : UInt8) : BitVec 32 := eax.extractLsb' 8 24 ++ byte.toBitVec

def al (eax : BitVec 32) : UInt8 := ⟨eax.setWidth 8⟩

def loadBytes (mem : Memory) : Address → Nat → Option (List UInt8)
  | _, 0 => some []
  | a, n + 1 => do
      let byte ← mem a
      let bytes ← loadBytes mem (a + 1) n
      some (byte :: bytes)

def loadWord (mem : Memory) (a : Address) : Option (BitVec 32) :=
  (loadBytes mem a 4).map fun bytes => BitVec.ofNat 32 (LittleEndian.value bytes)

def store (mem : Memory) (a : Address) (byte : UInt8) : Option Memory :=
  if (mem a).isSome then some (Function.update mem a (some byte)) else none

def SYS_exit : BitVec 32 := 1

def SYS_write : BitVec 32 := 4

/-- The system call that is asked for by `eax`. -/
def int80 (answer : List Call → BitVec 32) (m : Machine) : Option Machine :=
  if m.regs.eax = SYS_exit then
    some { m with
      pc := m.pc + 1
      calls := m.calls ++ [.exit m.regs.ebx]
      status := some m.regs.ebx }
  else if m.regs.eax = SYS_write then do
    let bytes ← loadBytes m.mem m.regs.ecx m.regs.edx.toNat
    let calls := m.calls ++ [.write m.regs.ebx bytes]
    some { m with pc := m.pc + 1, calls := calls, regs := { m.regs with eax := answer calls } }
  else none

/-- The next state, or `none` for a fault. -/
def exec (answer : List Call → BitVec 32) (m : Machine) : Instr → Option Machine
  | .popl dst => do
      let v ← loadWord m.mem m.regs.esp
      let regs := { m.regs with esp := m.regs.esp + 4 }
      some { m with pc := m.pc + 1, regs := regs.set v dst }
  | .movl src dst => some { m with pc := m.pc + 1, regs := m.regs.set (m.regs.get src) dst }
  | .movlImm v dst => some { m with pc := m.pc + 1, regs := m.regs.set v dst }
  | .movbLoad base => do
      let byte ← m.mem (m.regs.get base)
      some { m with pc := m.pc + 1, regs := { m.regs with eax := setAl m.regs.eax byte } }
  | .movbStore byte displacement base => do
      let mem ← store m.mem (m.regs.get base + displacement) byte
      some { m with pc := m.pc + 1, mem := mem }
  | .xorl src dst =>
      let v := m.regs.get dst ^^^ m.regs.get src
      some { m with pc := m.pc + 1, regs := m.regs.set v dst, zero := v = 0 }
  | .inc dst =>
      let v := m.regs.get dst + 1
      some { m with pc := m.pc + 1, regs := m.regs.set v dst, zero := v = 0 }
  | .testl src dst =>
      some { m with pc := m.pc + 1, zero := m.regs.get dst &&& m.regs.get src = 0 }
  | .testAl => some { m with pc := m.pc + 1, zero := al m.regs.eax = 0 }
  | .jz target => some { m with pc := if m.zero then target else m.pc + 1 }
  | .jnz target => some { m with pc := if m.zero then m.pc + 1 else target }
  | .jmp target => some { m with pc := target }
  | .int80 => int80 answer m
  | .ret => do
      let target ← loadWord m.mem m.regs.esp
      some { m with pc := target.toNat, regs := { m.regs with esp := m.regs.esp + 4 } }

/-- A machine that has exited makes no step. -/
def step (answer : List Call → BitVec 32) (program : List Instr) (m : Machine) : Option Machine :=
  if m.status.isSome then none else program[m.pc]?.bind (exec answer m)

/-- One state leads to another in some steps. -/
def Runs (answer : List Call → BitVec 32) (program : List Instr) : Machine → Machine → Prop :=
  Relation.ReflTransGen fun m m' => step answer program m = some m'

variable {answer : List Call → BitVec 32} {program : List Instr} {m m' m'' : Machine}
  {mem : Memory} {a b : Address} {bytes : List UInt8}

theorem Runs.refl (m : Machine) : Runs answer program m m := Relation.ReflTransGen.refl

theorem Runs.cons (hstep : step answer program m = some m') (hruns : Runs answer program m' m'') :
    Runs answer program m m'' := Relation.ReflTransGen.head hstep hruns

theorem Runs.trans (h : Runs answer program m m') (h' : Runs answer program m' m'') :
    Runs answer program m m'' := Relation.ReflTransGen.trans h h'

/-- A run that exits passes through every state that can be reached. -/
theorem Runs.to_last (h : Runs answer program m m') (hstatus : m'.status.isSome)
    (hstate : Runs answer program m m'') : Runs answer program m'' m' := by
  rcases Relation.ReflTransGen.total_of_right_unique
      (fun _ _ _ h h' => Option.some.inj (h.symm.trans h')) hstate h with h | h
  · exact h
  · cases Relation.ReflTransGen.cases_head h with
    | inl heq => exact heq ▸ Runs.refl m'
    | inr hstep =>
        obtain ⟨next, hstep, -⟩ := hstep
        rw [step, if_pos hstatus] at hstep
        cases hstep

@[simp]
theorem al_setAl (eax : BitVec 32) (byte : UInt8) : al (setAl eax byte) = byte := by
  refine UInt8.eq_of_toBitVec_eq ?_
  change (eax.extractLsb' 8 24 ++ byte.toBitVec).setWidth 8 = byte.toBitVec
  exact (BitVec.setWidth_append (w := 24) (v := 8)).trans (dif_pos le_rfl)

/-! ### Memory -/

/-- The memory has these bytes from an address on. -/
def Holds (mem : Memory) (a : Address) (bytes : List UInt8) : Prop :=
  ∀ i (h : i < bytes.length), mem (a + BitVec.ofNat 32 i) = some bytes[i]

theorem add_ofNat_succ (a : Address) (i : Nat) :
    a + BitVec.ofNat 32 (i + 1) = a + 1 + BitVec.ofNat 32 i := by
  rw [BitVec.add_assoc, Nat.add_comm, BitVec.ofNat_add]
  rfl

theorem Holds.head {byte : UInt8} (h : Holds mem a (byte :: bytes)) : mem a = some byte := by
  have h0 := h 0 (Nat.succ_pos _)
  rwa [BitVec.add_zero] at h0

theorem Holds.tail {byte : UInt8} (h : Holds mem a (byte :: bytes)) : Holds mem (a + 1) bytes := by
  intro i hi
  rw [← add_ofNat_succ]
  exact h (i + 1) (Nat.succ_lt_succ hi)

theorem Holds.loadBytes (h : Holds mem a bytes) : loadBytes mem a bytes.length = some bytes := by
  induction bytes generalizing a with
  | nil => rfl
  | cons byte bytes ih =>
      rw [List.length_cons, X86.loadBytes, h.head, ih h.tail]
      rfl

theorem Holds.update (h : Holds mem a bytes) (byte : UInt8)
    (hne : ∀ i < bytes.length, b ≠ a + BitVec.ofNat 32 i) :
    Holds (Function.update mem b (some byte)) a bytes := by
  intro i hi
  rw [Function.update_of_ne (hne i hi).symm]
  exact h i hi

theorem loadBytes_update (mem : Memory) (byte : UInt8) {n : Nat}
    (hne : ∀ i < n, b ≠ a + BitVec.ofNat 32 i) :
    loadBytes (Function.update mem b (some byte)) a n = loadBytes mem a n := by
  induction n generalizing a with
  | zero => rfl
  | succ n ih =>
      have h0 := hne 0 (Nat.succ_pos n)
      rw [BitVec.add_zero] at h0
      have htail : ∀ i < n, b ≠ a + 1 + BitVec.ofNat 32 i := by
        intro i hi
        rw [← add_ofNat_succ]
        exact hne (i + 1) (Nat.succ_lt_succ hi)
      rw [loadBytes, loadBytes, ih htail, Function.update_of_ne h0.symm]

theorem loadWord_update (mem : Memory) (byte : UInt8)
    (hne : ∀ i < 4, b ≠ a + BitVec.ofNat 32 i) :
    loadWord (Function.update mem b (some byte)) a = loadWord mem a := by
  rw [loadWord, loadWord, loadBytes_update mem byte hne]

end CodeSlices.X86
