import Mathlib.Data.Nat.Find
import CodeSlices.Adb.Query

/-!
# Waiting for a device

`wait-for-device` of `lisp/adb.rkt`. Its loop reads groups of four characters until one is `OKAY`.
At the end of the stream each group is eof, and so the loop ends only where there is such a group.
-/

namespace CodeSlices.Adb

/-- The loop of `wait-cb`, with the number of groups that it may read. -/
def waitLoop : Nat → List UInt8 → Option (List UInt8)
  | 0, _ => none
  | fuel + 1, fd =>
      let (ret, fd) := readString 4 fd
      if ret = some okay then some fd else waitLoop fuel fd

def waitCb (fuel : Nat) : Callback := fun s =>
  (waitLoop fuel s.cIn).map fun cIn => .ok { s with cIn := cIn }

def waitForDevice (toNumber : List Char → Option Nat) (net : Network)
    (server : Option (List UInt8)) (fuel : Nat) : Run Session :=
  hostService toNumber net server "wait-for-any".toList (waitCb fuel)

/-- The stream after `k` groups of four characters. -/
def afterGroups (fd : List UInt8) : Nat → List UInt8
  | 0 => fd
  | k + 1 => (readString 4 (afterGroups fd k)).2

def group (fd : List UInt8) (k : Nat) : Option (List Char) := (readString 4 (afterGroups fd k)).1

def IsFirstOkay (fd : List UInt8) (k : Nat) : Prop :=
  group fd k = some okay ∧ ∀ j < k, group fd j ≠ some okay

/-- The loop comes to an end, and if there is a group `OKAY`, then behind the first one. -/
def Ends (fd : List UInt8) : Prop :=
  ∃ fuel left, waitLoop fuel fd = some left ∧ ∀ k, IsFirstOkay fd k → left = afterGroups fd (k + 1)

variable {fd bytes : List UInt8} {k fuel : Nat}

theorem afterGroups_succ (fd : List UInt8) (k : Nat) :
    afterGroups fd (k + 1) = afterGroups (readString 4 fd).2 k := by
  induction k with
  | zero => rfl
  | succ k ih => rw [afterGroups, ih, afterGroups]

theorem group_succ (fd : List UInt8) (k : Nat) :
    group fd (k + 1) = group (readString 4 fd).2 k := by
  rw [group, group, afterGroups_succ]

theorem waitLoop_succ (fuel : Nat) (fd : List UInt8) : waitLoop (fuel + 1) fd =
    if group fd 0 = some okay then some (afterGroups fd 1)
    else waitLoop fuel (afterGroups fd 1) := rfl

theorem waitLoop_eq (hfirst : IsFirstOkay fd k) :
    waitLoop (k + 1) fd = some (afterGroups fd (k + 1)) := by
  induction k generalizing fd with
  | zero => rw [waitLoop_succ, if_pos hfirst.1]
  | succ k ih =>
      obtain ⟨hokay, hbefore⟩ := hfirst
      have hnext : IsFirstOkay (afterGroups fd 1) k := by
        refine ⟨(group_succ fd k).symm.trans hokay, fun j hj => ?_⟩
        rw [afterGroups, afterGroups, ← group_succ]
        exact hbefore (j + 1) (Nat.succ_lt_succ hj)
      rw [waitLoop_succ, if_neg (hbefore 0 (Nat.succ_pos k)), ih hnext]
      exact congrArg some (afterGroups_succ fd (k + 1)).symm

/-- Without an `OKAY` the loop goes on, at the end of the stream too. -/
theorem waitLoop_running (hnone : ∀ k, group fd k ≠ some okay) (fuel : Nat) :
    waitLoop fuel fd = none := by
  induction fuel generalizing fd with
  | zero => rfl
  | succ fuel ih =>
      rw [waitLoop_succ, if_neg (hnone 0)]
      exact ih fun k => (group_succ fd k) ▸ hnone (k + 1)

theorem exists_isFirstOkay (hokay : group fd k = some okay) : ∃ k, IsFirstOkay fd k := by
  classical
  have hexists : ∃ k, group fd k = some okay := ⟨k, hokay⟩
  exact ⟨Nat.find hexists, Nat.find_spec hexists, fun _ => Nat.find_min hexists⟩

theorem IsFirstOkay.unique {j : Nat} (hj : IsFirstOkay fd j) (hk : IsFirstOkay fd k) : j = k := by
  rcases Nat.lt_trichotomy j k with hlt | heq | hgt
  · exact absurd hj.1 (hk.2 j hlt)
  · exact heq
  · exact absurd hk.1 (hj.2 k hgt)

theorem exists_waitLoop_iff (fd : List UInt8) :
    (∃ fuel left, waitLoop fuel fd = some left) ↔ ∃ k, group fd k = some okay := by
  constructor
  · rintro ⟨fuel, left, hloop⟩
    by_contra hnone
    rw [waitLoop_running (not_exists.mp hnone)] at hloop
    cases hloop
  · rintro ⟨k, hokay⟩
    obtain ⟨first, hfirst⟩ := exists_isFirstOkay hokay
    exact ⟨first + 1, _, waitLoop_eq hfirst⟩

/-- The loop comes to an end exactly on the streams with a group `OKAY`. -/
theorem ends_iff (fd : List UInt8) : Ends fd ↔ ∃ k, group fd k = some okay := by
  constructor
  · rintro ⟨fuel, left, hloop, -⟩
    exact (exists_waitLoop_iff fd).mp ⟨fuel, left, hloop⟩
  · rintro ⟨k, hokay⟩
    obtain ⟨first, hfirst⟩ := exists_isFirstOkay hokay
    refine ⟨first + 1, _, waitLoop_eq hfirst, fun k hk => ?_⟩
    rw [hfirst.unique hk]

/-- A device that goes away before the second `OKAY`: the stream ends and the loop does not. -/
theorem waitLoop_closed : (∀ fuel, waitLoop fuel [] = none) ∧ ¬ Ends [] := by
  have hnil : ∀ k, afterGroups [] k = [] := by
    intro k
    induction k with
    | zero => rfl
    | succ k ih => rw [afterGroups, ih]; rfl
  have hnone : ∀ k, group [] k ≠ some okay := by
    intro k
    rw [group, hnil]
    decide
  refine ⟨waitLoop_running hnone, ?_⟩
  rintro ⟨fuel, left, hloop, -⟩
  cases hloop.symm.trans (waitLoop_running hnone fuel)

/-! ### The whole call -/

/-- Whatever the network does when the ports are closed, the call comes back from it. -/
theorem finish_waitCb_returns_iff (net : Network) (fuel : Nat) (status : Bool) (msg : List Char)
    (s : Session) :
    (∃ s', (withHandlers (finish net (waitCb fuel) false status msg s)).Returns s') ↔
      (status = true → ∃ left, waitLoop fuel s.cIn = some left) := by
  have hclose : ∀ s : Session,
      ∃ s', (withHandlers (ofExcept (closePorts net false s))).Returns s' := by
    intro s
    rw [closePorts, if_neg Bool.false_ne_true]
    split
    · exact ⟨_, rfl⟩
    · exact ⟨_, rfl⟩
  cases status with
  | false => exact iff_of_true (hclose _) fun h => absurd h Bool.false_ne_true
  | true =>
      rw [finish, if_pos rfl, runCallback, waitCb, imp_iff_right rfl]
      cases waitLoop fuel s.cIn with
      | none =>
          constructor
          · rintro ⟨s', hreturns⟩
            cases hreturns
          · rintro ⟨left, hloop⟩
            cases hloop
      | some left => exact iff_of_true (hclose _) ⟨left, rfl⟩

/-- The call returns exactly when the network fails before the wait, or a status comes and, if it is
`OKAY`, another `OKAY` after it. -/
theorem waitForDevice_returns_iff (toNumber : List Char → Option Nat) (net : Network)
    (bytes : List UInt8) :
    (∃ fuel s, (waitForDevice toNumber net (some bytes) fuel).Returns s) ↔
      RoundFails toNumber net .command bytes ∨ HasStatus toNumber bytes ∧
        (Accepts bytes → ∃ k, group (readString 4 bytes).2 k = some okay) := by
  have hlocal : ¬ switches ("host:".toList ++ "wait-for-any".toList) := by decide
  have hcmd : ("host:".toList ++ "wait-for-any".toList).length < 65536 := by decide
  have hrequest : ∀ fuel, waitForDevice toNumber net (some bytes) fuel = withHandlers
      (ofExcept (send net .command ("host:".toList ++ "wait-for-any".toList) { cIn := bytes } >>=
        readStatus toNumber net .command) >>= fun answer =>
          finish net (waitCb fuel) false answer.1 answer.2.1 answer.2.2) := by
    intro fuel
    rw [waitForDevice, hostService, query, request_eq, switchFirst, if_neg hlocal,
      ofExcept_ok_bind]
  simp only [hrequest]
  by_cases hnet : RoundFails toNumber net .command bytes
  · obtain ⟨s', herror, -⟩ := round_drops (s := { cIn := bytes }) hcmd hnet
    rw [herror]
    exact iff_of_true ⟨0, connectError s', rfl⟩ (.inl hnet)
  · rw [or_iff_right hnet]
    by_cases hstatus : HasStatus toNumber bytes
    · obtain ⟨msg, hok⟩ := round_ok (s := { cIn := bytes }) hcmd hnet hstatus
      simp only [hok, ofExcept_ok_bind, finish_waitCb_returns_iff, decide_eq_true_eq,
        and_iff_right hstatus]
      by_cases haccepts : Accepts bytes
      · rw [imp_iff_right haccepts, ← exists_waitLoop_iff, afterStatus,
          if_neg (not_refuses_of_accepts haccepts)]
        simp only [imp_iff_right haccepts]
      · exact iff_of_true ⟨0, fun h => absurd h haccepts⟩ fun h => absurd h haccepts
    · rw [round_error (s := { cIn := bytes }) hcmd hnet hstatus]
      refine iff_of_false ?_ fun h => hstatus h.1
      rintro ⟨fuel, s, hreturns⟩
      cases hreturns

end CodeSlices.Adb
