import Mathlib.Order.Filter.AtTopBot.Basic
import CodeSlices.StringFind.Program

/-!
# The comparison

What `string_compare` returns for the length of its second string, next to `strncmp` of the C
library.
-/

namespace CodeSlices.StringFind

open CodeSlices.Logged Filter

variable {s1 s2 : CString} {i fuel : Nat} {n : Int} {P : Read → Prop}

/-- `strncmp` on strings without their terminators: bytes are compared as unsigned, and a
terminator is less than every one. -/
def strncmp : List UInt8 → List UInt8 → Nat → Int
  | _, _, 0 => 0
  | [], [], _ + 1 => 0
  | [], _ :: _, _ + 1 => -1
  | _ :: _, [], _ + 1 => 1
  | a :: s, b :: t, n + 1 => if a = b then strncmp s t n else if a < b then -1 else 1

/-- What `string_compare` makes of two strings: the first byte that differs counts as less. -/
def compareResult : List UInt8 → List UInt8 → Int
  | [], [] => 0
  | _ :: _, [] => 1
  | [], _ :: _ => -1
  | a :: s, b :: t => if a = b then compareResult s t else -1

theorem compareResult_eq_strncmp_iff (s t : List UInt8) :
    (compareResult s t).sign = (strncmp s t t.length).sign ↔ s ≤ t := by
  induction s generalizing t with
  | nil =>
      cases t with
      | nil => simp [compareResult, strncmp]
      | cons b t => simp [compareResult, strncmp]
  | cons a s ih =>
      cases t with
      | nil => simp [compareResult, strncmp]
      | cons b t =>
          rw [List.cons_le_cons_iff, compareResult, List.length_cons, strncmp]
          by_cases heq : a = b
          · subst heq
            simpa using ih t
          · by_cases hlt : a < b
            · simp [heq, hlt]
            · simp [heq, hlt]

/-! ### The run -/

/-- What is left of `string_compare` after its loop. -/
def compareRest (m : Memory) (result : Int × Int) : Run Int := do
  if result.2 = 0 then
    if (← load m .first result.1) = 0 then
      return 0
    else
      return 1
  else
    return -1

theorem stringCompare_eq (s1 s2 : CString) (len fuel : Nat) :
    stringCompare (memoryOf s1 s2) len fuel
      = stringCompareLoop (memoryOf s1 s2) fuel 0 (toInt len) >>= compareRest (memoryOf s1 s2) := by
  unfold stringCompare
  rw [if_neg (by simp)]
  rfl

/-- What is left of a string from `i` on. -/
structure Rest (s : CString) (i : Nat) (rest : List UInt8) : Prop where
  drop : s.bytes.drop i = rest
  le : i ≤ s.bytes.length

theorem Rest.start (s : CString) : Rest s 0 s.bytes := ⟨List.drop_zero, Nat.zero_le _⟩

theorem Rest.returns_load {m : Memory} {p : Param} {s : CString} {rest : List UInt8}
    (hrest : Rest s i rest) (hs : m p = some s) :
    Returns (load m p i) (fun _ => True) (rest.headD 0) := by
  refine StringFind.returns_load hs ?_ trivial
  rw [CString.terminated, ← List.head?_drop, List.drop_append_of_le_length hrest.le, hrest.drop]
  cases rest <;> rfl

theorem Rest.ne_zero {s : CString} {a : UInt8} {rest : List UInt8}
    (hrest : Rest s i (a :: rest)) : a ≠ 0 := by
  rintro rfl
  apply s.noNul
  apply List.mem_of_mem_drop
  rw [hrest.drop]
  exact List.mem_cons_self

theorem Rest.next {s : CString} {a : UInt8} {rest : List UInt8} (hrest : Rest s i (a :: rest)) :
    Rest s (i + 1) rest := by
  constructor
  · rw [← List.tail_drop, hrest.drop, List.tail_cons]
  · have hlength := congrArg List.length hrest.drop
    rw [List.length_drop, List.length_cons] at hlength
    omega

/-- Where the loop stops, the rest of the function tells the strings apart. -/
theorem Rest.returns_compareRest {s t : List UInt8} (hs : Rest s1 i s)
    (hstop : compareResult s t = -1 ∨ t = []) :
    Returns (compareRest (memoryOf s1 s2) (i, t.length)) (fun _ => True) (compareResult s t) := by
  have hfirst := hs.returns_load (m := memoryOf s1 s2) memoryOf_first
  unfold compareRest
  cases t with
  | nil =>
      rw [if_pos (by rfl)]
      refine hfirst.bind ?_
      cases s with
      | nil => exact Returns.pure 0
      | cons a s =>
          rw [List.headD_cons, if_neg hs.ne_zero]
          exact Returns.pure 1
  | cons b t =>
      have hlen : ((b :: t).length : Int) ≠ 0 := Int.natCast_ne_zero.mpr (Nat.succ_ne_zero _)
      rw [if_neg hlen, hstop.resolve_right (List.cons_ne_nil b t)]
      exact Returns.pure (-1)

theorem exists_returns_compareLoop {s t : List UInt8} (hs : Rest s1 i s) (ht : Rest s2 i t)
    (hlen : t.length < 2 ^ 31) (hfuel : t.length < fuel) :
    ∃ result, Returns (stringCompareLoop (memoryOf s1 s2) fuel i t.length) (fun _ => True) result ∧
      Returns (compareRest (memoryOf s1 s2) result) (fun _ => True) (compareResult s t) := by
  induction fuel generalizing i s t with
  | zero => omega
  | succ fuel ih =>
      have hfirst := hs.returns_load (m := memoryOf s1 s2) memoryOf_first
      have hsecond := ht.returns_load (m := memoryOf s1 s2) memoryOf_second
      unfold stringCompareLoop
      cases s with
      | nil =>
          refine ⟨(i, t.length), hfirst.bind ?_, hs.returns_compareRest ?_⟩
          · exact Returns.pure _
          · cases t with
            | nil => exact Or.inr rfl
            | cons b t => exact Or.inl rfl
      | cons a s =>
          have ha := hs.ne_zero
          cases t with
          | nil =>
              refine ⟨(i, 0), hfirst.bind ?_, hs.returns_compareRest (Or.inr rfl)⟩
              rw [List.headD_cons, if_neg ha]
              refine hsecond.bind ?_
              exact Returns.pure _
          | cons b t =>
              have hb := ht.ne_zero
              rw [List.length_cons] at hlen hfuel
              by_cases heq : a = b
              · subst heq
                obtain ⟨result, hloop, hrest⟩ := ih hs.next ht.next (by omega) (by omega)
                refine ⟨result, hfirst.bind ?_, ?_⟩
                · rw [List.headD_cons, if_neg ha]
                  refine hsecond.bind ?_
                  rw [List.headD_cons, if_neg hb, if_neg (by simp)]
                  refine hfirst.bind (hsecond.bind ?_)
                  rw [List.headD_cons, List.headD_cons, if_neg (by simp)]
                  rw [List.length_cons, show ((t.length + 1 : Nat) - 1 : Int) = t.length by omega]
                  refine (returns_int (by omega) (by omega)).bind ?_
                  exact_mod_cast hloop
                · simpa [compareResult] using hrest
              · refine ⟨(i, (b :: t).length), hfirst.bind ?_, hs.returns_compareRest (Or.inl ?_)⟩
                · rw [List.headD_cons, if_neg ha]
                  refine hsecond.bind ?_
                  rw [List.headD_cons, if_neg hb, if_neg (by simp)]
                  refine hfirst.bind (hsecond.bind ?_)
                  rw [List.headD_cons, List.headD_cons, if_pos heq]
                  exact Returns.pure _
                · rw [compareResult, if_neg heq]

theorem returns_testCmp (hlen : s2.bytes.length < 2 ^ 31) (hfuel : s2.bytes.length < fuel) :
    Returns (testCmp (memoryOf s1 s2) fuel) (fun _ => True) (compareResult s1.bytes s2.bytes) := by
  obtain ⟨result, hloop, hrest⟩ :=
    exists_returns_compareLoop (Rest.start s1) (Rest.start s2) hlen hfuel
  unfold testCmp
  refine ((returns_stringLen memoryOf_second hlen hfuel).mono fun _ _ => trivial).bind ?_
  rw [toSize_natCast hlen, stringCompare_eq, toInt_of_lt hlen]
  exact hloop.bind hrest

theorem fails_testCmp (hlen : 2 ^ 31 ≤ s2.bytes.length) (hfuel : 2 ^ 31 ≤ fuel) :
    Fails (testCmp (memoryOf s1 s2) fuel) Fault.overflow := by
  unfold testCmp
  exact (fails_stringLen memoryOf_second hlen hfuel).bind

/-! ### Against the C library -/

/-- `string_compare`, given the length of its second string, has the sign of `strncmp`. -/
def ComparesAsStrncmp (s1 s2 : CString) : Prop :=
  ∃ r, (∀ᶠ fuel in atTop, Returns (testCmp (memoryOf s1 s2) fuel) (fun _ => True) r) ∧
    r.sign = (strncmp s1.bytes s2.bytes s2.bytes.length).sign

theorem comparesAsStrncmp_of_length_lt (hlen : s2.bytes.length < 2 ^ 31) :
    ComparesAsStrncmp s1 s2 ↔ s1.bytes ≤ s2.bytes := by
  rw [← compareResult_eq_strncmp_iff]
  constructor
  · rintro ⟨r, hreturns, hsign⟩
    obtain ⟨fuel, hfuel, hr⟩ :=
      ((eventually_gt_atTop s2.bytes.length).and hreturns).exists
    rwa [hr.unique (returns_testCmp hlen hfuel)] at hsign
  · intro hsign
    refine ⟨_, ?_, hsign⟩
    filter_upwards [eventually_gt_atTop s2.bytes.length] with fuel hfuel
    exact returns_testCmp hlen hfuel

/-- The signs agree exactly where the first string does not come after the second. -/
theorem comparesAsStrncmp_iff (s1 s2 : CString) :
    ComparesAsStrncmp s1 s2 ↔ s2.bytes.length < 2 ^ 31 ∧ s1.bytes ≤ s2.bytes := by
  by_cases hlen : s2.bytes.length < 2 ^ 31
  · rw [comparesAsStrncmp_of_length_lt hlen]
    exact (and_iff_right hlen).symm
  · refine iff_of_false ?_ fun h => hlen h.1
    rintro ⟨r, hreturns, -⟩
    obtain ⟨fuel, hfuel, hr⟩ := ((eventually_ge_atTop (2 ^ 31)).and hreturns).exists
    exact hr.not_fails (fails_testCmp (Nat.le_of_not_lt hlen) hfuel)

/-- `abcdef` and `abc` of the program's own tests. -/
theorem not_comparesAsStrncmp_abc :
    ¬ ComparesAsStrncmp (.ofBytes [97, 98, 99, 100, 101, 102]) (.ofBytes [97, 98, 99]) := by
  rw [comparesAsStrncmp_of_length_lt (by decide)]
  decide

end CodeSlices.StringFind
