import Mathlib.Data.List.Basic

/-!
# Palindromes

`is-palindrome` of `lisp/projecteuler.net/p4.rkt`. An index that is no position of the string
raises, which is `none`.
-/

namespace CodeSlices.ProjectEuler.Palindrome

/-- The loop of `is-palindrome`, for the rounds that are left; an index and a length are fixnums,
which `eq?` compares by their value. -/
def loop (ns : List Char) : Nat → Nat → Option Bool
  | 0, _ => none
  | fuel + 1, i =>
      if i = ns.length / 2 then some true
      else do
        let front ← ns[i]?
        let back ← ns[ns.length - i - 1]?
        if front = back then loop ns fuel (i + 1) else some false

def isPalindrome (n : Nat) : Option Bool :=
  let ns := Nat.toDigits 10 n
  if ns.length % 2 = 1 then some false else loop ns (ns.length + 1) 0

variable {ns : List Char} {i fuel : Nat}

/-- The first half of a string read backwards is the other half. -/
theorem reverse_eq_iff (heven : ns.length % 2 = 0) :
    ns.reverse = ns ↔ ∀ i < ns.length / 2, ns[i]? = ns[ns.length - i - 1]? := by
  rw [List.ext_getElem?_iff]
  constructor
  · intro h i hi
    have hrev := h i
    rw [List.getElem?_reverse (by omega)] at hrev
    rw [← hrev]
    congr 1
    omega
  · intro h i
    by_cases hi : i < ns.length
    · rw [List.getElem?_reverse hi]
      by_cases hhalf : i < ns.length / 2
      · rw [h i hhalf]
        congr 1
        omega
      · have hother := h (ns.length - 1 - i) (by omega)
        rw [hother]
        congr 1
        omega
    · rw [List.getElem?_eq_none (by rw [List.length_reverse]; omega),
        List.getElem?_eq_none (by omega)]

/-- The loop compares what is left of the two halves, and every index it uses is a position. -/
theorem loop_eq (heven : ns.length % 2 = 0) (hi : i ≤ ns.length / 2)
    (hfuel : ns.length / 2 < i + fuel)
    (hbefore : ∀ j < i, ns[j]? = ns[ns.length - j - 1]?) :
    loop ns fuel i = some (decide (ns.reverse = ns)) := by
  induction fuel generalizing i with
  | zero => omega
  | succ fuel ih =>
      rw [loop]
      by_cases hend : i = ns.length / 2
      · rw [if_pos hend, decide_eq_true]
        rw [reverse_eq_iff heven, ← hend]
        exact hbefore
      · rw [if_neg hend]
        have hfront : i < ns.length := by omega
        have hback : ns.length - i - 1 < ns.length := by omega
        rw [List.getElem?_eq_getElem hfront, List.getElem?_eq_getElem hback]
        simp only [Option.bind_eq_bind, Option.bind_some]
        by_cases heq : ns[i] = ns[ns.length - i - 1]
        · rw [if_pos heq]
          refine ih (by omega) (by omega) fun j hj => ?_
          rcases Nat.lt_succ_iff_lt_or_eq.mp hj with hj | rfl
          · exact hbefore j hj
          · rw [List.getElem?_eq_getElem hfront, List.getElem?_eq_getElem hback, heq]
        · rw [if_neg heq, decide_eq_false]
          rw [reverse_eq_iff heven]
          intro hall
          have hsame := hall i (by omega)
          rw [List.getElem?_eq_getElem hfront, List.getElem?_eq_getElem hback] at hsame
          exact heq (Option.some.inj hsame)

/-- The numbers that are found are the palindromes with an even number of digits. -/
theorem isPalindrome_eq (n : Nat) :
    isPalindrome n = some (decide ((Nat.toDigits 10 n).length % 2 = 0 ∧
      (Nat.toDigits 10 n).reverse = Nat.toDigits 10 n)) := by
  rw [isPalindrome]
  by_cases hodd : (Nat.toDigits 10 n).length % 2 = 1
  · rw [if_pos hodd, decide_eq_false]
    rintro ⟨heven, -⟩
    omega
  · have heven : (Nat.toDigits 10 n).length % 2 = 0 := by omega
    rw [if_neg hodd, loop_eq heven (Nat.zero_le _) (by omega) fun j hj => absurd hj (by omega)]
    congr 2
    exact (eq_true heven ▸ (true_and _)).symm

end CodeSlices.ProjectEuler.Palindrome
