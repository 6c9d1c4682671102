import Mathlib.Algebra.Group.Nat.Defs
import Mathlib.Data.List.Rotate
import CodeSlices.Lib.Logged

/-!
# Rotation in place

`rotate` of `c/online-test/rotate-string.cpp`, with every index it uses. A string may be read at its
length, where the terminator stands, and is not written there.
-/

namespace CodeSlices.OnlineTest

open CodeSlices.Logged

inductive Fault
  | outside
  | divideByZero
  deriving DecidableEq

inductive Event
  | index (i : Nat)
  | line (s : List UInt8) (n : Nat)
  deriving DecidableEq

abbrev Run := Logged Event Fault

/-- `s[i]` -/
def load (s : List UInt8) (i : Nat) : Run UInt8 :=
  match (s ++ [0])[i]? with
  | none => throw .outside
  | some c => do
      emit (.index i)
      return c

/-- `s[i] = c` -/
def store (s : List UInt8) (i : Nat) (c : UInt8) : Run (List UInt8) :=
  if i < s.length then do
    emit (.index i)
    return s.set i c
  else throw .outside

/-- The inner loop from `r` on, with the number of rounds that are left. -/
def shiftLoop : Nat → Nat → List UInt8 → Run (List UInt8)
  | 0, _, s => return s
  | rounds + 1, r, s => do
      let c ← load s ((r + 1) % 2 ^ 32)
      let s ← store s r c
      shiftLoop rounds (r + 1) s

def rotateOnce (l : Nat) (s : List UInt8) : Run (List UInt8) := do
  let c ← load s 0
  let s ← shiftLoop l 0 s
  store s ((l + 2 ^ 32 - 1) % 2 ^ 32) c

def rotateLoop (l : Nat) : Nat → List UInt8 → Run (List UInt8)
  | 0, s => return s
  | rounds + 1, s => do
      let s ← rotateOnce l s
      rotateLoop l rounds s

def modulo (n l : Nat) : Run Nat := if l = 0 then throw .divideByZero else return n % l

/-- The reduction that is there for speed. -/
def reduce (n l : Nat) : Run Nat := if n > l then modulo n l else return n

def rotate (s : List UInt8) (n : UInt32) : Run (List UInt8) := do
  let l := s.length % 2 ^ 32
  let n ← reduce n.toNat l
  emit (.line s n)
  rotateLoop l n s

/-- An index is not beyond the terminator. -/
def Event.Inside (len : Nat) : Event → Prop
  | .index i => i ≤ len
  | .line _ _ => True

variable {s pre suf : List UInt8} {x c : UInt8} {i len n : Nat}

theorem returns_load (hget : (s ++ [0])[i]? = some c) (hi : i ≤ len) :
    Returns (load s i) (Event.Inside len) c := by
  refine ⟨[.index i], ?_, fun e he => List.mem_singleton.mp he ▸ hi⟩
  unfold load
  rw [hget]
  exact (Yields.emit _).bind (Yields.pure c)

theorem returns_store (hi : i < s.length) (hlen : s.length ≤ len) (c : UInt8) :
    Returns (store s i c) (Event.Inside len) (s.set i c) := by
  refine ⟨[.index i], ?_, fun e he => List.mem_singleton.mp he ▸ hi.le.trans hlen⟩
  unfold store
  rw [if_pos hi]
  exact (Yields.emit _).bind (Yields.pure _)

theorem set_append_cons (pre suf : List UInt8) (x c : UInt8) :
    (pre ++ x :: suf).set pre.length c = pre ++ c :: suf := by
  rw [List.set_append_right _ _ le_rfl, Nat.sub_self, List.set_cons_zero]

theorem getElem?_terminated (pre suf : List UInt8) (x c : UInt8) :
    (pre ++ x :: c :: suf)[pre.length + 1]? = some c := by
  rw [List.getElem?_append_right (by omega), Nat.add_sub_cancel_left]
  rfl

theorem returns_shiftRound {rounds : Nat} {t : List UInt8}
    (hlen : (pre ++ x :: suf).length = len) (hsize : len < 2 ^ 32)
    (hget : (pre ++ x :: suf ++ [0])[pre.length + 1]? = some c)
    (hrest : Returns (shiftLoop rounds (pre.length + 1) (pre ++ c :: suf)) (Event.Inside len) t) :
    Returns (shiftLoop (rounds + 1) pre.length (pre ++ x :: suf)) (Event.Inside len) t := by
  have hr : pre.length + 1 ≤ len := by
    rw [← hlen, List.length_append, List.length_cons]
    omega
  have hstore := returns_store (s := pre ++ x :: suf) (i := pre.length) (by omega) hlen.le c
  rw [set_append_cons] at hstore
  rw [shiftLoop, Nat.mod_eq_of_lt (by omega)]
  exact (returns_load hget hr).bind (hstore.bind hrest)

/-- Behind the place where the loop stands the string is as before; the terminator comes last. -/
theorem returns_shiftLoop (pre suf : List UInt8) (x : UInt8)
    (hlen : (pre ++ x :: suf).length = len) (hsize : len < 2 ^ 32) :
    Returns (shiftLoop (suf.length + 1) pre.length (pre ++ x :: suf)) (Event.Inside len)
      (pre ++ suf ++ [0]) := by
  induction suf generalizing pre x with
  | nil =>
      have hget : (pre ++ [x] ++ [0])[pre.length + 1]? = some 0 := by
        rw [List.append_assoc]
        exact getElem?_terminated pre [] x 0
      rw [List.append_nil]
      exact returns_shiftRound hlen hsize hget (Returns.pure _)
  | cons y suf ih =>
      have hget : (pre ++ x :: y :: suf ++ [0])[pre.length + 1]? = some y := by
        rw [List.append_assoc]
        exact getElem?_terminated pre (suf ++ [0]) x y
      have hnext : pre ++ [y] ++ y :: suf = pre ++ y :: y :: suf := by
        rw [List.append_assoc, List.singleton_append]
      have hrest := ih (pre ++ [y]) y (by
        rw [hnext, ← hlen, List.length_append, List.length_append]
        rfl)
      rw [hnext, List.append_assoc pre, List.singleton_append, List.length_append] at hrest
      exact returns_shiftRound hlen hsize hget hrest

theorem returns_rotateOnce (hne : s ≠ []) (hlen : s.length = len) (hsize : len < 2 ^ 32) :
    Returns (rotateOnce len s) (Event.Inside len) (s.rotate 1) := by
  obtain ⟨x, suf, rfl⟩ := List.exists_cons_of_ne_nil hne
  have hshift := returns_shiftLoop [] suf x hlen hsize
  have hlast : (len + 2 ^ 32 - 1) % 2 ^ 32 = suf.length := by
    rw [List.length_cons] at hlen
    omega
  have hset : (suf ++ [0]).set suf.length x = (x :: suf).rotate 1 := by
    rw [List.set_append_right _ _ le_rfl, Nat.sub_self, List.rotate_cons_succ, List.rotate_zero]
    rfl
  have hstore : Returns (store (suf ++ [0]) suf.length x) (Event.Inside len)
      ((suf ++ [0]).set suf.length x) :=
    returns_store (by simp) (by simpa using hlen.le) x
  rw [hset] at hstore
  rw [List.length_cons] at hlen
  unfold rotateOnce
  rw [hlast, ← hlen]
  rw [← hlen] at hshift hstore
  exact (returns_load rfl (Nat.zero_le _)).bind (hshift.bind hstore)

theorem returns_rotateLoop (hne : s ≠ []) (hlen : s.length = len) (hsize : len < 2 ^ 32) (n : Nat) :
    Returns (rotateLoop len n s) (Event.Inside len) (s.rotate n) := by
  induction n generalizing s with
  | zero =>
      rw [List.rotate_zero]
      exact Returns.pure s
  | succ n ih =>
      have hrest := ih (s := s.rotate 1) (by simpa using hne) (by simpa using hlen)
      rw [List.rotate_rotate, Nat.add_comm] at hrest
      exact (returns_rotateOnce hne hlen hsize).bind hrest

theorem returns_reduce (hne : s ≠ []) (n : Nat) :
    ∃ k, Returns (reduce n s.length) (Event.Inside len) k ∧ s.rotate k = s.rotate n := by
  have hpos : s.length ≠ 0 := fun h => hne (List.length_eq_zero_iff.mp h)
  unfold reduce
  by_cases hgt : n > s.length
  · refine ⟨n % s.length, ?_, List.rotate_mod s n⟩
    rw [if_pos hgt, modulo, if_neg hpos]
    exact Returns.pure _
  · refine ⟨n, ?_, rfl⟩
    rw [if_neg hgt]
    exact Returns.pure _

/-- The reduction makes no difference, and the rotation takes the first characters to the end. -/
theorem rotate_eq (hne : s ≠ []) (hsize : s.length < 2 ^ 32) (n : UInt32) :
    Returns (rotate s n) (Event.Inside s.length)
      (s.drop (n.toNat % s.length) ++ s.take (n.toNat % s.length)) ∧
    Returns (rotateLoop s.length n.toNat s) (Event.Inside s.length)
      (s.drop (n.toNat % s.length) ++ s.take (n.toNat % s.length)) := by
  rw [← List.rotate_eq_drop_append_take_mod]
  refine ⟨?_, returns_rotateLoop hne rfl hsize _⟩
  obtain ⟨k, hk, hrotate⟩ := returns_reduce hne n.toNat
  have hline : Returns (emit (.line s k) : Run Unit) (Event.Inside s.length) () :=
    ⟨_, Yields.emit _, fun e he => List.mem_singleton.mp he ▸ trivial⟩
  unfold rotate
  rw [Nat.mod_eq_of_lt hsize, ← hrotate]
  exact hk.bind (hline.bind (returns_rotateLoop hne rfl hsize k))

theorem rotate_abcdefg :
    Returns (rotate ("abcdefg".toList.map Char.toUInt8) 13) (Event.Inside 7)
      ("gabcdef".toList.map Char.toUInt8) :=
  (rotate_eq (s := "abcdefg".toList.map Char.toUInt8) (by decide) (by decide) 13).1

end CodeSlices.OnlineTest
