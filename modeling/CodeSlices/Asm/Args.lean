import CodeSlices.Lib.X86

/-!
# The arguments of a program

`asm/args.s`, from its first instruction on, in a process that has its arguments on the stack: it
asks the kernel to write each of them with a new line, and exits.
-/

namespace CodeSlices.Asm

open X86

def STDOUT : BitVec 32 := 1

def ASCII_LF : UInt8 := 10

/-! ### The labels -/

def lewp : Nat := 1

def strlen : Nat := 6

def exit : Nat := 16

/-- The instructions from `_start` on. -/
def args : List Instr :=
  [.popl .ecx,
   -- lewp
   .popl .ecx, .testl .ecx .ecx, .jz exit,
   .movl .ecx .ebx, .xorl .edx .edx,
   -- strlen
   .movbLoad .ebx, .inc .edx, .inc .ebx, .testAl, .jnz strlen,
   .movbStore ASCII_LF (-1) .ebx,
   .movlImm SYS_write .eax, .movlImm STDOUT .ebx, .int80,
   .jmp lewp,
   -- exit
   .movlImm SYS_exit .eax, .xorl .ebx .ebx, .int80,
   .ret]

/-! ### The stack -/

/-- An argument: where it is and what it says. -/
structure Arg where
  ptr : Address
  text : List UInt8

/-- The place of the byte behind the text. -/
def Arg.stop (arg : Arg) : Address := arg.ptr + BitVec.ofNat 32 arg.text.length

/-- Words that lie behind each other. -/
def Words (mem : Memory) : Address → List (BitVec 32) → Prop
  | _, [] => True
  | a, w :: ws => loadWord mem a = some w ∧ Words mem (a + 4) ws

/-- The stack has the arguments that are left and the null pointer behind them. The byte behind a
text, which the program writes to, is neither on the stack nor in a later argument. -/
structure Ready (mem : Memory) (esp : Address) (argv : List Arg) : Prop where
  words : Words mem esp (argv.map Arg.ptr ++ [0])
  ptr_ne_zero : ∀ arg ∈ argv, arg.ptr ≠ 0
  zero_notMem : ∀ arg ∈ argv, 0 ∉ arg.text
  length_lt : ∀ arg ∈ argv, arg.text.length + 1 < 2 ^ 32
  holds : ∀ arg ∈ argv, Holds mem arg.ptr (arg.text ++ [0])
  apart : argv.Pairwise fun arg later =>
    ∀ i ≤ later.text.length, arg.stop ≠ later.ptr + BitVec.ofNat 32 i
  off_stack : ∀ arg ∈ argv, ∀ i < 4 * (argv.length + 1), arg.stop ≠ esp + BitVec.ofNat 32 i

variable {answer : List Call → BitVec 32} {mem : Memory} {regs : Registers} {zero : Bool}
  {calls : List Call} {a b esp : Address} {arg : Arg} {argv : List Arg} {ws : List (BitVec 32)}

theorem Words.update (h : Words mem a ws) (byte : UInt8)
    (hne : ∀ i < 4 * ws.length, b ≠ a + BitVec.ofNat 32 i) :
    Words (Function.update mem b (some byte)) a ws := by
  induction ws generalizing a with
  | nil => trivial
  | cons w ws ih =>
      rw [List.length_cons] at hne
      refine ⟨?_, ih h.2 fun i hi => ?_⟩
      · rw [loadWord_update mem byte fun i hi => hne i (by omega)]
        exact h.1
      · have hnext := hne (4 + i) (by omega)
        rwa [BitVec.ofNat_add, ← BitVec.add_assoc] at hnext

/-- An argument less, when the byte behind it has been written to. -/
theorem Ready.next (h : Ready mem esp (arg :: argv)) (byte : UInt8) :
    Ready (Function.update mem arg.stop (some byte)) (esp + 4) argv where
  words := by
    refine h.words.2.update byte fun i hi => ?_
    have hne := h.off_stack arg List.mem_cons_self (4 + i) (by
      change i < 4 * (argv.map Arg.ptr ++ [0]).length at hi
      rw [List.length_append, List.length_map, List.length_singleton] at hi
      rw [List.length_cons]
      omega)
    rwa [BitVec.ofNat_add, ← BitVec.add_assoc] at hne
  ptr_ne_zero := fun arg' harg => h.ptr_ne_zero arg' (List.mem_cons_of_mem arg harg)
  zero_notMem := fun arg' harg => h.zero_notMem arg' (List.mem_cons_of_mem arg harg)
  length_lt := fun arg' harg => h.length_lt arg' (List.mem_cons_of_mem arg harg)
  holds := by
    intro arg' harg
    refine (h.holds arg' (List.mem_cons_of_mem arg harg)).update byte fun i hi => ?_
    rw [List.length_append, List.length_singleton] at hi
    exact (List.pairwise_cons.mp h.apart).1 arg' harg i (Nat.le_of_lt_succ hi)
  apart := (List.pairwise_cons.mp h.apart).2
  off_stack := by
    intro arg' harg i hi
    have hne := h.off_stack arg' (List.mem_cons_of_mem arg harg) (4 + i) (by
      rw [List.length_cons]
      omega)
    rwa [BitVec.ofNat_add, ← BitVec.add_assoc] at hne

/-! ### The loops -/

/-- A pass of the inner loop. -/
theorem strlen_pass (regs : Registers) (zero : Bool) (calls : List Call) {byte : UInt8}
    (h : mem regs.ebx = some byte) :
    Runs answer args ⟨strlen, regs, zero, mem, calls, none⟩
      ⟨if byte = 0 then 11 else strlen,
        ⟨setAl regs.eax byte, regs.ebx + 1, regs.ecx, regs.edx + 1, regs.esp⟩,
        byte = 0, mem, calls, none⟩ := by
  have hload : step answer args ⟨strlen, regs, zero, mem, calls, none⟩ =
      some ⟨7, { regs with eax := setAl regs.eax byte }, zero, mem, calls, none⟩ := by
    change (mem regs.ebx).bind _ = _
    rw [h]
    rfl
  have htest (regs' : Registers) (zero' : Bool) (hal : al regs'.eax = byte) :
      step answer args ⟨9, regs', zero', mem, calls, none⟩ =
        some ⟨10, regs', byte = 0, mem, calls, none⟩ := by
    rw [← hal]
    rfl
  have hjump (regs' : Registers) :
      step answer args ⟨10, regs', byte = 0, mem, calls, none⟩ =
        some ⟨if byte = 0 then 11 else strlen, regs', byte = 0, mem, calls, none⟩ := by
    by_cases hbyte : byte = 0
    · rw [if_pos hbyte, decide_eq_true hbyte]
      rfl
    · rw [if_neg hbyte, decide_eq_false hbyte]
      rfl
  exact .cons hload <| .cons rfl <| .cons rfl <| .cons (htest _ _ (al_setAl _ byte)) <|
    .cons (hjump _) (.refl _)

/-- The inner loop stops behind the zero and has counted it. -/
theorem strlen_runs (regs : Registers) (zero : Bool) (calls : List Call) {text : List UInt8}
    (hzero : 0 ∉ text) (h : Holds mem regs.ebx (text ++ [0])) :
    ∃ eax, Runs answer args ⟨strlen, regs, zero, mem, calls, none⟩
      ⟨11, ⟨eax, regs.ebx + BitVec.ofNat 32 (text.length + 1), regs.ecx,
        regs.edx + BitVec.ofNat 32 (text.length + 1), regs.esp⟩, true, mem, calls, none⟩ := by
  induction text generalizing regs zero with
  | nil => exact ⟨_, strlen_pass regs zero calls h.head⟩
  | cons byte text ih =>
      rw [List.mem_cons, not_or] at hzero
      have hpass : Runs answer args _ _ := strlen_pass regs zero calls h.head
      rw [if_neg (Ne.symm hzero.1)] at hpass
      obtain ⟨eax, hrest⟩ := ih ⟨setAl regs.eax byte, regs.ebx + 1, regs.ecx, regs.edx + 1,
        regs.esp⟩ (byte = 0) hzero.2 h.tail
      refine ⟨eax, hpass.trans ?_⟩
      rw [List.length_cons, add_ofNat_succ regs.ebx, add_ofNat_succ regs.edx]
      exact hrest

theorem ofNat_add_neg_one (a : Address) (n : Nat) :
    a + BitVec.ofNat 32 (n + 1) + -1 = a + BitVec.ofNat 32 n := by
  have hone : (1#32 + -1 : Address) = 0#32 := by decide
  rw [BitVec.ofNat_add, BitVec.add_assoc, BitVec.add_assoc, hone, BitVec.add_zero]

theorem ofNat_ne {i n : Nat} (hi : i < n) (hn : n < 2 ^ 32) :
    BitVec.ofNat 32 i ≠ BitVec.ofNat 32 n := by
  intro heq
  have hnat := congrArg BitVec.toNat heq
  rw [BitVec.toNat_ofNat, BitVec.toNat_ofNat, Nat.mod_eq_of_lt (hi.trans hn),
    Nat.mod_eq_of_lt hn] at hnat
  exact hi.ne hnat

/-- The last byte of a text that is in memory is replaced. -/
theorem Arg.holds_replaced (hlt : arg.text.length + 1 < 2 ^ 32)
    (h : Holds mem arg.ptr (arg.text ++ [0])) (byte : UInt8) :
    Holds (Function.update mem arg.stop (some byte)) arg.ptr (arg.text ++ [byte]) := by
  intro i hi
  rw [List.length_append, List.length_singleton] at hi
  rcases Nat.lt_succ_iff_lt_or_eq.mp hi with hlt' | rfl
  · have hne : arg.ptr + BitVec.ofNat 32 i ≠ arg.stop := by
      intro heq
      exact ofNat_ne hlt' (by omega) ((BitVec.add_right_inj arg.ptr).mp heq)
    have hold := h i (by rw [List.length_append]; exact Nat.lt_add_right _ hlt')
    rw [List.getElem_append_left hlt'] at hold
    rw [Function.update_of_ne hne, hold, List.getElem_append_left hlt']
  · rw [List.getElem_concat_length rfl]
    exact Function.update_self _ _ _

/-- A pass of the outer loop makes the call that writes an argument. -/
theorem lewp_pass (regs : Registers) (zero : Bool) (calls : List Call)
    (h : Ready mem regs.esp (arg :: argv)) :
    ∃ eax ebx ecx edx, Runs answer args ⟨lewp, regs, zero, mem, calls, none⟩
      ⟨lewp, ⟨eax, ebx, ecx, edx, regs.esp + 4⟩, true,
        Function.update mem arg.stop (some ASCII_LF),
        calls ++ [.write STDOUT (arg.text ++ [ASCII_LF])], none⟩ := by
  have hmem : arg ∈ arg :: argv := List.mem_cons_self
  have hlt := h.length_lt arg hmem
  have hholds := h.holds arg hmem
  have hpop : step answer args ⟨lewp, regs, zero, mem, calls, none⟩ =
      some ⟨2, ⟨regs.eax, regs.ebx, arg.ptr, regs.edx, regs.esp + 4⟩, zero, mem, calls, none⟩ := by
    change (loadWord mem regs.esp).bind _ = _
    rw [h.words.1]
    rfl
  have htest (eax ebx edx esp : BitVec 32) :
      step answer args ⟨2, ⟨eax, ebx, arg.ptr, edx, esp⟩, zero, mem, calls, none⟩ =
        some ⟨3, ⟨eax, ebx, arg.ptr, edx, esp⟩, false, mem, calls, none⟩ := by
    have hne : decide (arg.ptr &&& arg.ptr = 0) = false := by
      rw [BitVec.and_self]
      exact decide_eq_false (h.ptr_ne_zero arg hmem)
    rw [← hne]
    rfl
  have hxor (eax ebx ecx edx esp : BitVec 32) :
      step answer args ⟨5, ⟨eax, ebx, ecx, edx, esp⟩, false, mem, calls, none⟩ =
        some ⟨strlen, ⟨eax, ebx, ecx, 0, esp⟩, true, mem, calls, none⟩ := by
    have hzero : edx ^^^ edx = 0 := BitVec.xor_self
    change some (Machine.mk _ (Registers.mk _ _ _ (edx ^^^ edx) _)
      (decide (edx ^^^ edx = 0)) _ _ _) = _
    rw [hzero]
    rfl
  obtain ⟨eax, hstrlen⟩ : ∃ eax, Runs answer args
      ⟨strlen, ⟨regs.eax, arg.ptr, arg.ptr, 0, regs.esp + 4⟩, true, mem, calls, none⟩
      ⟨11, ⟨eax, arg.ptr + BitVec.ofNat 32 (arg.text.length + 1), arg.ptr,
        0 + BitVec.ofNat 32 (arg.text.length + 1), regs.esp + 4⟩, true, mem, calls, none⟩ :=
    strlen_runs ⟨regs.eax, arg.ptr, arg.ptr, 0, regs.esp + 4⟩ true calls
      (h.zero_notMem arg hmem) hholds
  have hstore (eax edx esp : BitVec 32) :
      step answer args ⟨11, ⟨eax, arg.ptr + BitVec.ofNat 32 (arg.text.length + 1), arg.ptr, edx,
        esp⟩, true, mem, calls, none⟩ =
        some ⟨12, ⟨eax, arg.ptr + BitVec.ofNat 32 (arg.text.length + 1), arg.ptr, edx, esp⟩, true,
          Function.update mem arg.stop (some ASCII_LF), calls, none⟩ := by
    have hlast : mem arg.stop = some 0 := by
      have hstop := hholds arg.text.length (by simp)
      rwa [List.getElem_concat_length rfl] at hstop
    change (store mem (arg.ptr + BitVec.ofNat 32 (arg.text.length + 1) + -1) ASCII_LF).bind _ = _
    rw [ofNat_add_neg_one, store, if_pos (by rw [← Arg.stop, hlast]; rfl)]
    rfl
  have hwrite (esp : BitVec 32) :
      step answer args ⟨14, ⟨SYS_write, STDOUT, arg.ptr, 0 + BitVec.ofNat 32 (arg.text.length + 1),
        esp⟩, true, Function.update mem arg.stop (some ASCII_LF), calls, none⟩ =
        some ⟨15, ⟨answer (calls ++ [.write STDOUT (arg.text ++ [ASCII_LF])]), STDOUT, arg.ptr,
          0 + BitVec.ofNat 32 (arg.text.length + 1), esp⟩, true,
          Function.update mem arg.stop (some ASCII_LF),
          calls ++ [.write STDOUT (arg.text ++ [ASCII_LF])], none⟩ := by
    have hcount : (0 + BitVec.ofNat 32 (arg.text.length + 1) : BitVec 32).toNat =
        (arg.text ++ [ASCII_LF]).length := by
      have hzero : (0 + BitVec.ofNat 32 (arg.text.length + 1) : BitVec 32) =
          BitVec.ofNat 32 (arg.text.length + 1) := BitVec.zero_add _
      rw [hzero, BitVec.toNat_ofNat, Nat.mod_eq_of_lt hlt, List.length_append]
      rfl
    have hload := (Arg.holds_replaced hlt hholds ASCII_LF).loadBytes
    rw [← hcount] at hload
    change (loadBytes _ arg.ptr (0 + BitVec.ofNat 32 (arg.text.length + 1) : BitVec 32).toNat).bind
      _ = _
    rw [hload]
    rfl
  refine ⟨_, _, _, _, .cons hpop <| .cons (htest _ _ _ _) <| .cons rfl <| .cons rfl <|
    .cons (hxor _ _ _ _ _) <| hstrlen.trans <| .cons (hstore _ _ _) <| .cons rfl <| .cons rfl <|
    .cons (hwrite _) <| .cons rfl <| .refl _⟩

/-- At the null pointer the program exits. -/
theorem exit_runs (regs : Registers) (zero : Bool) (calls : List Call)
    (h : Ready mem regs.esp []) :
    ∃ regs', Runs answer args ⟨lewp, regs, zero, mem, calls, none⟩
      ⟨19, regs', true, mem, calls ++ [.exit 0], some 0⟩ := by
  have hpop : step answer args ⟨lewp, regs, zero, mem, calls, none⟩ =
      some ⟨2, ⟨regs.eax, regs.ebx, 0, regs.edx, regs.esp + 4⟩, zero, mem, calls, none⟩ := by
    change (loadWord mem regs.esp).bind _ = _
    rw [show loadWord mem regs.esp = some 0 from h.words.1]
    rfl
  have htest (eax ebx edx esp : BitVec 32) :
      step answer args ⟨2, ⟨eax, ebx, 0, edx, esp⟩, zero, mem, calls, none⟩ =
        some ⟨3, ⟨eax, ebx, 0, edx, esp⟩, true, mem, calls, none⟩ := by
    have hzero : decide ((0 : BitVec 32) &&& 0 = 0) = true := by decide
    rw [← hzero]
    rfl
  have hjump (regs : Registers) :
      step answer args ⟨3, regs, true, mem, calls, none⟩ =
        some ⟨exit, regs, true, mem, calls, none⟩ := rfl
  have hmovl (eax ebx ecx edx esp : BitVec 32) :
      step answer args ⟨exit, ⟨eax, ebx, ecx, edx, esp⟩, true, mem, calls, none⟩ =
        some ⟨17, ⟨SYS_exit, ebx, ecx, edx, esp⟩, true, mem, calls, none⟩ := rfl
  have hxor (ebx ecx edx esp : BitVec 32) :
      step answer args ⟨17, ⟨SYS_exit, ebx, ecx, edx, esp⟩, true, mem, calls, none⟩ =
        some ⟨18, ⟨SYS_exit, 0, ecx, edx, esp⟩, true, mem, calls, none⟩ := by
    have hzero : ebx ^^^ ebx = 0 := BitVec.xor_self
    change some (Machine.mk _ (Registers.mk _ (ebx ^^^ ebx) _ _ _)
      (decide (ebx ^^^ ebx = 0)) _ _ _) = _
    rw [hzero]
    rfl
  have hexit (ecx edx esp : BitVec 32) :
      step answer args ⟨18, ⟨SYS_exit, 0, ecx, edx, esp⟩, true, mem, calls, none⟩ =
        some ⟨19, ⟨SYS_exit, 0, ecx, edx, esp⟩, true, mem, calls ++ [.exit 0], some 0⟩ := rfl
  exact ⟨_, .cons hpop <| .cons (htest _ _ _ _) <| .cons (hjump _) <| .cons (hmovl _ _ _ _ _) <|
    .cons (hxor _ _ _ _) <| .cons (hexit _ _ _) <| .refl _⟩

theorem lewp_runs (regs : Registers) (zero : Bool) (calls : List Call)
    (h : Ready mem regs.esp argv) :
    ∃ regs' mem', Runs answer args ⟨lewp, regs, zero, mem, calls, none⟩
      ⟨19, regs', true, mem',
        calls ++ argv.map (fun arg => .write STDOUT (arg.text ++ [ASCII_LF])) ++ [.exit 0],
        some 0⟩ := by
  induction argv generalizing mem regs zero calls with
  | nil =>
      obtain ⟨regs', hruns⟩ := exit_runs regs zero calls h
      rw [List.map_nil, List.append_nil]
      exact ⟨regs', mem, hruns⟩
  | cons arg argv ih =>
      obtain ⟨eax, ebx, ecx, edx, hpass⟩ := lewp_pass regs zero calls h
      obtain ⟨regs', mem', hrest⟩ := ih ⟨eax, ebx, ecx, edx, regs.esp + 4⟩ true
        (calls ++ [.write STDOUT (arg.text ++ [ASCII_LF])]) (h.next ASCII_LF)
      refine ⟨regs', mem', hpass.trans ?_⟩
      rwa [List.append_assoc calls, List.singleton_append] at hrest

/-- The program asks for each of its arguments to be written with a new line, in one call, and exits
with 0, whatever the kernel answers and however much of them it writes. From every state of its run
it gets there. -/
theorem args_writes {m : Machine} {argc : BitVec 32} {argv : List Arg} (hpc : m.pc = 0)
    (hstatus : m.status = none) (hargc : loadWord m.mem m.regs.esp = some argc)
    (hready : Ready m.mem (m.regs.esp + 4) argv) :
    ∃ last, last.status = some 0 ∧
      last.calls = m.calls ++ argv.map (fun arg => .write STDOUT (arg.text ++ [ASCII_LF])) ++
        [.exit 0] ∧
      ∀ state, Runs answer args m state → Runs answer args state last := by
  obtain ⟨pc, regs, zero, mem, calls, status⟩ := m
  obtain rfl : pc = 0 := hpc
  obtain rfl : status = none := hstatus
  have hpop : step answer args ⟨0, regs, zero, mem, calls, none⟩ =
      some ⟨lewp, ⟨regs.eax, regs.ebx, argc, regs.edx, regs.esp + 4⟩, zero, mem, calls, none⟩ := by
    change (loadWord mem regs.esp).bind _ = _
    rw [show loadWord mem regs.esp = some argc from hargc]
    rfl
  obtain ⟨regs', mem', hruns⟩ :=
    lewp_runs ⟨regs.eax, regs.ebx, argc, regs.edx, regs.esp + 4⟩ zero calls hready
  exact ⟨_, rfl, rfl, fun state hstate => Runs.to_last (.cons hpop hruns) rfl hstate⟩

/-- A process with the arguments `hi` and `a`: the stack at 256, the texts at 512. -/
def started : Machine where
  pc := 0
  regs := ⟨0, 0, 0, 0, 256⟩
  zero := false
  mem := fun a =>
    if 256 ≤ a.toNat ∧ a.toNat < 272 then
      [2, 0, 0, 0, 0, 2, 0, 0, 3, 2, 0, 0, 0, 0, 0, 0][a.toNat - 256]?
    else if 512 ≤ a.toNat then [104, 105, 0, 97, 0][a.toNat - 512]?
    else none
  calls := []
  status := none

def startedArgs : List Arg := [⟨512, [104, 105]⟩, ⟨515, [97]⟩]

theorem started_ready : Ready started.mem (started.regs.esp + 4) startedArgs := by
  unfold startedArgs
  refine ⟨⟨by decide +kernel, by decide +kernel, by decide +kernel, trivial⟩, ?_, ?_, ?_, ?_, ?_,
    ?_⟩
  · simp
  · simp
  · simp
  · simp only [List.forall_mem_cons, List.not_mem_nil, false_implies, implies_true, and_true]
    unfold Holds
    decide +kernel
  · decide +kernel
  · simp only [List.forall_mem_cons, List.not_mem_nil, false_implies, implies_true, and_true]
    decide +kernel

theorem args_writes_started :
    ∃ last, last.status = some 0 ∧
      last.calls = started.calls ++ startedArgs.map (fun arg =>
        .write STDOUT (arg.text ++ [ASCII_LF])) ++ [.exit 0] ∧
      ∀ state, Runs (fun _ => 3) args started state → Runs (fun _ => 3) args state last :=
  args_writes rfl rfl (show loadWord started.mem started.regs.esp = some 2 by decide +kernel)
    started_ready

end CodeSlices.Asm
