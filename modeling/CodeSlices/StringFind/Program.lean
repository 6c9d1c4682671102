import Mathlib.Data.List.TakeWhile
import Mathlib.Tactic.Ring
import CodeSlices.Lib.Logged

/-!
# The functions on strings

`c/string-find.c`, statement by statement. A string is its bytes before the terminator. A parameter
that points to it reads bytes by their index, which is logged; the index after the terminator
belongs to no string. The depth of the C stack is not bounded.
-/

namespace CodeSlices.StringFind

open CodeSlices.Logged

inductive Fault
  | nullPointer
  | outside
  | overflow
  | outOfFuel
  deriving DecidableEq

structure CString where
  bytes : List UInt8
  noNul : 0 ∉ bytes
  deriving DecidableEq

def CString.terminated (s : CString) : List UInt8 := s.bytes ++ [0]

/-- The string in a buffer, up to the first NUL. -/
def CString.ofBytes (buffer : List UInt8) : CString where
  bytes := buffer.takeWhile fun byte => byte != 0
  noNul h := by simpa using List.mem_takeWhile_imp h

/-- The pointers a function is given. -/
inductive Param
  | first
  | second
  deriving DecidableEq

structure Read where
  param : Param
  index : Int
  deriving DecidableEq

/-- What the parameters point to, and nothing where one is `NULL`. -/
abbrev Memory := Param → Option CString

abbrev Run := Logged Read Fault

/-- `*(p + index)` -/
def load (m : Memory) (p : Param) (index : Int) : Run UInt8 :=
  match m p with
  | none => throw .nullPointer
  | some s =>
      match (if 0 ≤ index then s.terminated[index.toNat]? else none) with
      | none => throw .outside
      | some byte => do
          emit ⟨p, index⟩
          return byte

/-- The value of an `int` expression. -/
def int (z : Int) : Run Int :=
  if -2 ^ 31 ≤ z ∧ z < 2 ^ 31 then return z else throw .overflow

/-- `(size_t) z` -/
def toSize (z : Int) : Nat := (z % 2 ^ 64).toNat

/-- `(int) n` -/
def toInt (n : Nat) : Int := (n : Int).bmod (2 ^ 32)

def stringLenLoop (m : Memory) (str : Param) : Nat → Int → Int → Run Int
  | 0, _, _ => throw .outOfFuel
  | fuel + 1, index, len => do
      if m str = none then
        return len
      else if (← load m str index) = 0 then
        return len
      else
        let len ← int (len + 1)
        stringLenLoop m str fuel (index + 1) len

def stringLen (m : Memory) (str : Param) (fuel : Nat) : Run Int :=
  stringLenLoop m str fuel 0 0

/-- The loop, with both pointers at `index`. It ends there with the `n` that is left. -/
def stringCompareLoop (m : Memory) : Nat → Int → Int → Run (Int × Int)
  | 0, _, _ => throw .outOfFuel
  | fuel + 1, index, n => do
      if (← load m .first index) = 0 then
        return (index, n)
      else if (← load m .second index) = 0 then
        return (index, n)
      else if ¬ 0 < n then
        return (index, n)
      else if (← load m .first index) ≠ (← load m .second index) then
        return (index, n)
      else
        let n ← int (n - 1)
        stringCompareLoop m fuel (index + 1) n

def stringCompare (m : Memory) (len fuel : Nat) : Run Int := do
  let n := toInt len
  if m .first = none ∨ m .second = none then
    return -1
  else
    let (index, n) ← stringCompareLoop m fuel 0 n
    if n = 0 then
      if (← load m .first index) = 0 then
        return 0
      else
        return 1
    else
      return -1

/-- `ret2` of `TEST_CMP` -/
def testCmp (m : Memory) (fuel : Nat) : Run Int := do
  let len ← stringLen m .second fuel
  stringCompare m (toSize len) fuel

def stringFindRecurse (m : Memory) : Nat → Nat → Int → Int → Int → Run Int
  | 0, _, _, _, _ => throw .outOfFuel
  | fuel + 1, pos, strLen, dstLen, targetLen => do
      let offset ← int (dstLen - targetLen)
      if (← load m .first (pos + offset)) = (← load m .second offset) then
        if targetLen = 1 then
          return toInt pos
        else
          let targetLen ← int (targetLen - 1)
          stringFindRecurse m fuel pos strLen dstLen targetLen
      else
        let space ← int (strLen - targetLen)
        if toSize space ≤ pos then
          return -1
        else
          stringFindRecurse m fuel (toSize (pos + 1)) strLen dstLen dstLen

def stringFind (m : Memory) (fuel : Nat) : Run Int := do
  let slen := toSize (← stringLen m .first fuel)
  let dlen := toSize (← stringLen m .second fuel)
  if slen < dlen then
    return -1
  else
    stringFindRecurse m fuel 0 (toInt slen) (toInt dlen) (toInt dlen)

/-- The memory of a call with two strings. -/
def memoryOf (str dst : CString) : Memory
  | .first => some str
  | .second => some dst

variable {m : Memory} {p : Param} {s str dst : CString} {byte : UInt8} {z : Int} {i n fuel : Nat}
  {P : Read → Prop}

@[simp] theorem memoryOf_first : memoryOf str dst .first = some str := rfl

@[simp] theorem memoryOf_second : memoryOf str dst .second = some dst := rfl

/-! ### One step of a run -/

theorem returns_load (hs : m p = some s) (hbyte : s.terminated[i]? = some byte) (hP : P ⟨p, i⟩) :
    Returns (load m p i) P byte := by
  refine ⟨[⟨p, i⟩], ?_, fun r hr => List.mem_singleton.mp hr ▸ hP⟩
  unfold load
  simp only [hs, Int.natCast_nonneg, if_true, Int.toNat_natCast, hbyte]
  exact (Yields.emit _).bind (Yields.pure byte)

theorem fails_load (hs : m p = some s) (hbeyond : s.terminated[i]? = none) :
    Fails (load m p i) Fault.outside := by
  unfold load
  simp only [hs, Int.natCast_nonneg, if_true, Int.toNat_natCast, hbeyond]
  exact Fails.throw _

theorem returns_int (hlow : -2 ^ 31 ≤ z) (hhigh : z < 2 ^ 31) : Returns (int z) P z := by
  unfold int
  rw [if_pos ⟨hlow, hhigh⟩]
  exact Returns.pure z

theorem fails_int (hhigh : 2 ^ 31 ≤ z) : Fails (int z) Fault.overflow := by
  unfold int
  rw [if_neg (by omega)]
  exact Fails.throw _

theorem fails_load_bind {next : UInt8 → Run Int} {fault : Fault} (hs : m p = some s)
    (hbyte : s.terminated[i]? = some byte) (hnext : Fails (next byte) fault) :
    Fails (load m p i >>= next) fault :=
  (returns_load (P := fun _ => True) hs hbyte trivial).bind_fails hnext

theorem fails_int_bind {next : Int → Run Int} {fault : Fault} (hlow : -2 ^ 31 ≤ z)
    (hhigh : z < 2 ^ 31) (hnext : Fails (next z) fault) : Fails (int z >>= next) fault :=
  (returns_int (P := fun _ => True) hlow hhigh).bind_fails hnext

theorem toSize_natCast (h : n < 2 ^ 31) : toSize n = n := by
  unfold toSize
  omega

theorem toInt_of_lt (h : n < 2 ^ 31) : toInt n = n := by
  unfold toInt
  exact Int.bmod_eq_of_le (by omega) (by omega)

/-! ### The bytes of a string -/

theorem CString.terminated_of_lt (h : i < s.bytes.length) : s.terminated[i]? = s.bytes[i]? :=
  List.getElem?_append_left h

theorem CString.terminated_length (s : CString) : s.terminated[s.bytes.length]? = some 0 :=
  List.getElem?_concat_length

theorem CString.terminated_beyond (h : s.bytes.length < i) : s.terminated[i]? = none := by
  apply List.getElem?_eq_none
  rw [terminated, List.length_append, List.length_singleton]
  exact h

theorem CString.ne_zero_of_getElem? (h : s.bytes[i]? = some byte) : byte ≠ 0 := by
  rintro rfl
  exact s.noNul (List.mem_of_getElem? h)

/-- A byte that is not the terminator stands before it. -/
theorem CString.getElem?_of_ne_zero (h : s.terminated[i]? = some byte) (hne : byte ≠ 0) :
    s.bytes[i]? = some byte := by
  rcases Nat.lt_trichotomy i s.bytes.length with hlt | rfl | hgt
  · rwa [terminated_of_lt hlt] at h
  · rw [terminated_length] at h
    exact absurd (Option.some.inj h).symm hne
  · rw [terminated_beyond hgt] at h
    cases h

/-! ### The length of a string -/

/-- The index lies between the first byte of a string and its terminator. -/
def Read.Inside (m : Memory) (r : Read) : Prop :=
  ∃ s, m r.param = some s ∧ 0 ≤ r.index ∧ r.index ≤ s.bytes.length

theorem Read.inside_natCast (hs : m p = some s) (h : i ≤ s.bytes.length) :
    Read.Inside m ⟨p, i⟩ :=
  ⟨s, hs, Int.natCast_nonneg i, Int.ofNat_le.mpr h⟩

theorem returns_stringLenLoop (hs : m p = some s) (hlen : s.bytes.length < 2 ^ 31)
    (hi : i ≤ s.bytes.length) (hfuel : s.bytes.length < i + fuel) :
    Returns (stringLenLoop m p fuel i i) (Read.Inside m) s.bytes.length := by
  induction fuel generalizing i with
  | zero => omega
  | succ fuel ih =>
      unfold stringLenLoop
      rw [if_neg (by simp [hs])]
      rcases Nat.lt_or_eq_of_le hi with hlt | rfl
      · have hbyte : s.bytes[i]? = some s.bytes[i] := List.getElem?_eq_getElem hlt
        refine (returns_load hs ((s.terminated_of_lt hlt).trans hbyte)
          (Read.inside_natCast hs hi)).bind ?_
        rw [if_neg (s.ne_zero_of_getElem? hbyte)]
        refine (returns_int (by omega) (by omega)).bind ?_
        exact_mod_cast ih hlt (by omega)
      · refine (returns_load hs s.terminated_length (Read.inside_natCast hs hi)).bind ?_
        rw [if_pos rfl]
        exact Returns.pure _

theorem returns_stringLen (hs : m p = some s) (hlen : s.bytes.length < 2 ^ 31)
    (hfuel : s.bytes.length < fuel) :
    Returns (stringLen m p fuel) (Read.Inside m) s.bytes.length := by
  unfold stringLen
  exact_mod_cast returns_stringLenLoop hs hlen (Nat.zero_le _) (by omega)

theorem fails_stringLenLoop (hs : m p = some s) (hlen : 2 ^ 31 ≤ s.bytes.length) (hi : i < 2 ^ 31)
    (hfuel : 2 ^ 31 ≤ i + fuel) : Fails (stringLenLoop m p fuel i i) Fault.overflow := by
  induction fuel generalizing i with
  | zero => omega
  | succ fuel ih =>
      have hlt : i < s.bytes.length := Nat.lt_of_lt_of_le hi hlen
      have hbyte : s.bytes[i]? = some s.bytes[i] := List.getElem?_eq_getElem hlt
      unfold stringLenLoop
      rw [if_neg (by simp [hs])]
      refine fails_load_bind hs ((s.terminated_of_lt hlt).trans hbyte) ?_
      rw [if_neg (s.ne_zero_of_getElem? hbyte)]
      rcases Nat.lt_or_eq_of_le (Nat.succ_le_of_lt hi) with hnext | hlast
      · refine fails_int_bind (by omega) (by omega) ?_
        exact_mod_cast ih hnext (by omega)
      · exact (fails_int (by omega)).bind

/-- The length of a string that is too long for an `int` overflows. -/
theorem fails_stringLen (hs : m p = some s) (hlen : 2 ^ 31 ≤ s.bytes.length)
    (hfuel : 2 ^ 31 ≤ fuel) : Fails (stringLen m p fuel) Fault.overflow := by
  unfold stringLen
  have hfails := fails_stringLenLoop (i := 0) hs hlen (by omega) (by omega : 2 ^ 31 ≤ 0 + fuel)
  exact hfails

end CodeSlices.StringFind
