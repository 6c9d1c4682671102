import Mathlib.Order.Filter.AtTopBot.Basic
import CodeSlices.Lib.Search
import CodeSlices.StringFind.Program

/-!
# The search

`string_find` compares the word at one place of the text after the other and starts again at the
next one. What a call knows is that the word occurs nowhere before its place and that it agrees
there as far as it was compared.
-/

namespace CodeSlices.StringFind

open CodeSlices.Search CodeSlices.Logged Filter

variable {str dst : CString} {byte : UInt8} {pos k fuel : Nat}

/-- An index at which the comparisons may read: the terminator of the text, but not of the word. -/
def Read.InSearch (str dst : CString) : Read → Prop
  | ⟨.first, index⟩ => 0 ≤ index ∧ index ≤ str.bytes.length
  | ⟨.second, index⟩ => 0 ≤ index ∧ index < dst.bytes.length

theorem Read.InSearch.inside {r : Read} (h : r.InSearch str dst) :
    r.Inside (memoryOf str dst) := by
  rcases r with ⟨_ | _, index⟩
  · exact ⟨str, rfl, h.1, h.2⟩
  · exact ⟨dst, rfl, h.1, h.2.le⟩

/-- What a call of `string_find_recurse` knows that is to compare byte `k` at `pos`. -/
structure Searching (str dst : CString) (pos k : Nat) : Prop where
  none : NoneBefore dst.bytes str.bytes pos
  agrees : AgreesAt dst.bytes str.bytes pos k
  lt : k < dst.bytes.length
  room : pos + k ≤ str.bytes.length

theorem Searching.start (hdst : dst.bytes ≠ []) : Searching str dst 0 0 :=
  ⟨NoneBefore.zero, AgreesAt.zero, List.length_pos_of_ne_nil hdst, Nat.zero_le _⟩

theorem Searching.next (hsearch : Searching str dst pos k)
    (hbyte : str.bytes[pos + k]? = dst.bytes[k]?) (hlt : k + 1 < dst.bytes.length) :
    Searching str dst pos (k + 1) := by
  have hroom : pos + k < str.bytes.length := by
    rw [List.getElem?_eq_getElem hsearch.lt] at hbyte
    exact (List.getElem?_eq_some_iff.mp hbyte).1
  exact ⟨hsearch.none, hsearch.agrees.succ hbyte, hlt, hroom⟩

theorem Searching.not_occursAt (hsearch : Searching str dst pos k)
    (hbyte : str.bytes[pos + k]? ≠ dst.bytes[k]?) : ¬ OccursAt dst.bytes str.bytes pos :=
  fun hoccurs => hbyte (occursAt_iff_agreesAt.mp hoccurs k hsearch.lt)

theorem Searching.found (hsearch : Searching str dst pos k)
    (hbyte : str.bytes[pos + k]? = dst.bytes[k]?) (hlast : k + 1 = dst.bytes.length) :
    IsFirst dst.bytes str.bytes pos := by
  refine Or.inr ⟨pos, rfl, occursAt_iff_agreesAt.mpr ?_, hsearch.none⟩
  rw [← hlast]
  exact hsearch.agrees.succ hbyte

theorem Searching.stop (hsearch : Searching str dst pos k)
    (hbyte : str.bytes[pos + k]? ≠ dst.bytes[k]?)
    (hspace : str.bytes.length ≤ pos + (dst.bytes.length - k)) :
    IsFirst dst.bytes str.bytes (-1) := by
  have hlt := hsearch.lt
  refine Or.inl ⟨rfl, fun q => ?_⟩
  refine (hsearch.none.succ (hsearch.not_occursAt hbyte)).not_occursAt ?_ (by omega)
  exact List.ne_nil_of_length_pos (by omega)

theorem Searching.restart (hsearch : Searching str dst pos k)
    (hbyte : str.bytes[pos + k]? ≠ dst.bytes[k]?)
    (hspace : pos + (dst.bytes.length - k) < str.bytes.length) :
    Searching str dst (pos + 1) 0 := by
  have hlt := hsearch.lt
  exact ⟨hsearch.none.succ (hsearch.not_occursAt hbyte), AgreesAt.zero, by omega, by omega⟩

/-! ### The run -/

theorem exists_terminated (s : CString) {i : Nat} (h : i ≤ s.bytes.length) :
    ∃ byte, s.terminated[i]? = some byte := by
  refine ⟨_, List.getElem?_eq_getElem ?_⟩
  rw [CString.terminated, List.length_append, List.length_singleton]
  omega

/-- Comparing with a byte of the word, the terminator of the text counts as different. -/
theorem terminated_eq_iff {i : Nat} {b c : UInt8} (hb : str.terminated[i]? = some b)
    (hc : dst.bytes[k]? = some c) : b = c ↔ str.bytes[i]? = dst.bytes[k]? := by
  rw [hc]
  constructor
  · rintro rfl
    exact CString.getElem?_of_ne_zero hb (dst.ne_zero_of_getElem? hc)
  · intro heq
    obtain ⟨hlt, -⟩ := List.getElem?_eq_some_iff.mp heq
    rw [CString.terminated_of_lt hlt, heq] at hb
    exact (Option.some.inj hb).symm

/-- One comparison of the search, with what follows on either side of it. -/
theorem returns_compare {equal different : Run Int} {r : Int} (hsearch : Searching str dst pos k)
    (hequal : str.bytes[pos + k]? = dst.bytes[k]? → Returns equal (Read.InSearch str dst) r)
    (hdifferent : str.bytes[pos + k]? ≠ dst.bytes[k]? →
      Returns different (Read.InSearch str dst) r) :
    Returns (do
      if (← load (memoryOf str dst) .first (pos + k)) = (← load (memoryOf str dst) .second k) then
        equal
      else
        different) (Read.InSearch str dst) r := by
  have hlt := hsearch.lt
  have hroom := hsearch.room
  obtain ⟨b, hb⟩ := exists_terminated str hroom
  have hc : dst.bytes[k]? = some dst.bytes[k] := List.getElem?_eq_getElem hlt
  have hiff := terminated_eq_iff hb hc
  rw [← Int.natCast_add]
  refine (returns_load memoryOf_first hb ⟨by omega, by omega⟩).bind ?_
  refine (returns_load memoryOf_second ((dst.terminated_of_lt hlt).trans hc)
    ⟨by omega, by omega⟩).bind ?_
  split_ifs with heq
  · exact hequal (hiff.mp heq)
  · exact hdifferent fun h => heq (hiff.mpr h)

/-- One call of the search that compares byte `k` at `pos`. -/
theorem returns_call {r : Int} (hdst : dst.bytes.length < 2 ^ 31)
    (hsearch : Searching str dst pos k)
    (hequal : str.bytes[pos + k]? = dst.bytes[k]? →
      Returns (do
        if (dst.bytes.length - k : Int) = 1 then
          return toInt pos
        else
          let targetLen ← int (dst.bytes.length - k - 1)
          stringFindRecurse (memoryOf str dst) fuel pos str.bytes.length dst.bytes.length
            targetLen) (Read.InSearch str dst) r)
    (hdifferent : str.bytes[pos + k]? ≠ dst.bytes[k]? →
      Returns (do
        let space ← int (str.bytes.length - (dst.bytes.length - k))
        if toSize space ≤ pos then
          return -1
        else
          stringFindRecurse (memoryOf str dst) fuel (toSize (pos + 1)) str.bytes.length
            dst.bytes.length dst.bytes.length) (Read.InSearch str dst) r) :
    Returns (stringFindRecurse (memoryOf str dst) (fuel + 1) pos str.bytes.length
      dst.bytes.length (dst.bytes.length - k)) (Read.InSearch str dst) r := by
  have hlt := hsearch.lt
  unfold stringFindRecurse
  refine (returns_int (by omega) (by omega)).bind ?_
  rw [show (dst.bytes.length - (dst.bytes.length - k) : Int) = k by omega]
  exact returns_compare hsearch hequal hdifferent

theorem returns_stringFindRecurse (hdst : dst.bytes.length < 2 ^ 31)
    (hstr : str.bytes.length < 2 ^ 31) (hle : dst.bytes.length ≤ str.bytes.length)
    (hsearch : Searching str dst pos k)
    (hfuel : (str.bytes.length - pos) * dst.bytes.length + (dst.bytes.length - k) ≤ fuel) :
    ∃ r, IsFirst dst.bytes str.bytes r ∧
      Returns (stringFindRecurse (memoryOf str dst) fuel pos str.bytes.length dst.bytes.length
        (dst.bytes.length - k)) (Read.InSearch str dst) r := by
  have hlt := hsearch.lt
  have hroom := hsearch.room
  induction fuel generalizing pos k with
  | zero => omega
  | succ fuel ih =>
      by_cases hbyte : str.bytes[pos + k]? = dst.bytes[k]?
      · by_cases hlast : k + 1 = dst.bytes.length
        · refine ⟨pos, hsearch.found hbyte hlast, ?_⟩
          refine returns_call hdst hsearch (fun _ => ?_) fun h => absurd hbyte h
          rw [if_pos (by omega), toInt_of_lt (by omega)]
          exact Returns.pure _
        · have hnext := hsearch.next hbyte (by omega)
          obtain ⟨r, hr, hrest⟩ := ih hnext (by omega) hnext.lt hnext.room
          refine ⟨r, hr, returns_call hdst hsearch (fun _ => ?_) fun h => absurd hbyte h⟩
          rw [if_neg (by omega)]
          refine (returns_int (by omega) (by omega)).bind ?_
          rwa [show (dst.bytes.length - k - 1 : Int) = dst.bytes.length - (k + 1 : Nat) by omega]
      · by_cases hspace : str.bytes.length ≤ pos + (dst.bytes.length - k)
        · refine ⟨-1, hsearch.stop hbyte hspace, ?_⟩
          refine returns_call hdst hsearch (fun h => absurd h hbyte) fun _ => ?_
          refine (returns_int (by omega) (by omega)).bind ?_
          rw [if_pos (by unfold toSize; omega)]
          exact Returns.pure _
        · have hrestart := hsearch.restart hbyte (by omega)
          have hless : (str.bytes.length - (pos + 1)) * dst.bytes.length + dst.bytes.length
              = (str.bytes.length - pos) * dst.bytes.length := by
            rw [← Nat.succ_mul, Nat.succ_eq_add_one,
              show str.bytes.length - (pos + 1) + 1 = str.bytes.length - pos by omega]
          obtain ⟨r, hr, hrest⟩ := ih hrestart (by omega) hrestart.lt hrestart.room
          refine ⟨r, hr, returns_call hdst hsearch (fun h => absurd h hbyte) fun _ => ?_⟩
          refine (returns_int (by omega) (by omega)).bind ?_
          rw [if_neg (by unfold toSize; omega),
            show (pos + 1 : Int) = (pos + 1 : Nat) by omega, toSize_natCast (by omega)]
          rwa [Int.natCast_zero, Int.sub_zero] at hrest

theorem Searching.returns_start (hdst : dst.bytes.length < 2 ^ 31)
    (hstr : str.bytes.length < 2 ^ 31) (hle : dst.bytes.length ≤ str.bytes.length)
    (hne : dst.bytes ≠ [])
    (hfuel : str.bytes.length * dst.bytes.length + dst.bytes.length ≤ fuel) :
    ∃ r, IsFirst dst.bytes str.bytes r ∧
      Returns (stringFindRecurse (memoryOf str dst) fuel 0 str.bytes.length dst.bytes.length
        dst.bytes.length) (Read.InSearch str dst) r := by
  obtain ⟨r, hr, hrest⟩ := returns_stringFindRecurse hdst hstr hle (Searching.start hne) (by simpa)
  rw [Int.natCast_zero, Int.sub_zero] at hrest
  exact ⟨r, hr, hrest⟩

/-- `string_find` once the lengths are known. -/
theorem returns_stringFind {r : Int} (hdst : dst.bytes.length < 2 ^ 31)
    (hstr : str.bytes.length < 2 ^ 31) (hfuel : str.bytes.length + dst.bytes.length < fuel)
    (hshort : str.bytes.length < dst.bytes.length → r = -1)
    (hsearch : dst.bytes.length ≤ str.bytes.length →
      Returns (stringFindRecurse (memoryOf str dst) fuel 0 str.bytes.length dst.bytes.length
        dst.bytes.length) (Read.Inside (memoryOf str dst)) r) :
    Returns (stringFind (memoryOf str dst) fuel) (Read.Inside (memoryOf str dst)) r := by
  unfold stringFind
  refine (returns_stringLen memoryOf_first hstr (by omega)).bind ?_
  refine (returns_stringLen memoryOf_second hdst (by omega)).bind ?_
  simp only [toSize_natCast hstr, toSize_natCast hdst, toInt_of_lt hstr, toInt_of_lt hdst]
  split_ifs with hlt
  · rw [hshort hlt]
    exact Returns.pure _
  · exact hsearch (Nat.le_of_not_lt hlt)

/-- The word is not found in a text that is shorter. -/
theorem isFirst_of_length_lt (hlt : str.bytes.length < dst.bytes.length) :
    IsFirst dst.bytes str.bytes (-1) := by
  refine Or.inl ⟨rfl, fun q => NoneBefore.zero.not_occursAt ?_ (by omega)⟩
  exact List.ne_nil_of_length_pos (by omega)

theorem eventually_returns_search (hne : dst.bytes ≠ []) (hstr : str.bytes.length < 2 ^ 31)
    (hle : dst.bytes.length ≤ str.bytes.length) :
    ∃ r, IsFirst dst.bytes str.bytes r ∧ ∀ᶠ fuel in atTop,
      Returns (stringFindRecurse (memoryOf str dst) fuel 0 str.bytes.length dst.bytes.length
        dst.bytes.length) (Read.InSearch str dst) r := by
  have hdst := Nat.lt_of_le_of_lt hle hstr
  obtain ⟨r, hr, -⟩ := Searching.returns_start hdst hstr hle hne le_rfl
  refine ⟨r, hr, ?_⟩
  filter_upwards [eventually_ge_atTop (str.bytes.length * dst.bytes.length + dst.bytes.length)]
    with fuel hfuel
  obtain ⟨s, hs, hreturns⟩ := Searching.returns_start hdst hstr hle hne hfuel
  rwa [hr.unique hs]

/-- `string_find` ends with the first place of the word, with all its reads in `P`. -/
def FindsFirst (str dst : CString) (P : Read → Prop) : Prop :=
  ∃ r, IsFirst dst.bytes str.bytes r ∧
    ∀ᶠ fuel in atTop, Returns (stringFind (memoryOf str dst) fuel) P r

theorem findsFirst (hne : dst.bytes ≠ []) (hstr : str.bytes.length < 2 ^ 31)
    (hdst : dst.bytes.length < 2 ^ 31) : FindsFirst str dst (Read.Inside (memoryOf str dst)) := by
  rcases Nat.lt_or_ge str.bytes.length dst.bytes.length with hlt | hle
  · refine ⟨-1, isFirst_of_length_lt hlt, ?_⟩
    filter_upwards [eventually_gt_atTop (str.bytes.length + dst.bytes.length)] with fuel hfuel
    exact returns_stringFind hdst hstr hfuel (fun _ => rfl)
      fun hle => absurd hlt (Nat.not_lt_of_le hle)
  · obtain ⟨r, hr, hsearch⟩ := eventually_returns_search hne hstr hle
    refine ⟨r, hr, ?_⟩
    filter_upwards [hsearch, eventually_gt_atTop (str.bytes.length + dst.bytes.length)]
      with fuel hreturns hfuel
    exact returns_stringFind hdst hstr hfuel (fun hlt => absurd hle (Nat.not_le_of_lt hlt))
      fun _ => hreturns.mono fun _ => Read.InSearch.inside

/-- `string_find` finds a word that is not empty and reads neither string beyond its terminator. The
comparisons of its search do not even read the terminator of the word. -/
theorem stringFind_isFirst (str dst : CString) (hne : dst.bytes ≠ [])
    (hstr : str.bytes.length < 2 ^ 31) (hdst : dst.bytes.length < 2 ^ 31) :
    FindsFirst str dst (Read.Inside (memoryOf str dst)) ∧
      (dst.bytes.length ≤ str.bytes.length → ∃ r, ∀ᶠ fuel in atTop,
        Returns (stringFindRecurse (memoryOf str dst) fuel 0 str.bytes.length dst.bytes.length
          dst.bytes.length) (Read.InSearch str dst) r) := by
  refine ⟨findsFirst hne hstr hdst, fun hle => ?_⟩
  obtain ⟨r, -, hsearch⟩ := eventually_returns_search hne hstr hle
  exact ⟨r, hsearch⟩

theorem stringFind_isFirst_abc :
    FindsFirst (.ofBytes [97, 98, 99]) (.ofBytes [98, 99])
      (Read.Inside (memoryOf (.ofBytes [97, 98, 99]) (.ofBytes [98, 99]))) :=
  (stringFind_isFirst (.ofBytes [97, 98, 99]) (.ofBytes [98, 99]) (by decide) (by decide)
    (by decide)).1

/-- Measuring the word reads its terminator. -/
theorem stringFind_reads_terminator :
    ¬ FindsFirst (.ofBytes []) (.ofBytes [97]) (Read.InSearch (.ofBytes []) (.ofBytes [97])) := by
  rintro ⟨r, -, hreturns⟩
  obtain ⟨n, hn⟩ := eventually_atTop.mp hreturns
  obtain ⟨new, hyields, hreads⟩ := hn (n + 2) (Nat.le_add_right n 2)
  have hrun : stringFind (memoryOf (.ofBytes []) (.ofBytes [97])) (n + 2) []
      = .ok (-1, [⟨.first, 0⟩, ⟨.second, 0⟩, ⟨.second, 1⟩]) := rfl
  have hlog : [⟨.first, 0⟩, ⟨.second, 0⟩, ⟨.second, 1⟩] = new :=
    congrArg Prod.snd (Except.ok.inj (hrun.symm.trans (hyields [])))
  have hlast := hreads ⟨.second, 1⟩ (hlog ▸ by decide)
  exact absurd hlast.2 (by decide)

/-! ### The empty word -/

theorem fails_stringFindRecurse_empty (hempty : dst.bytes = []) (hstr : str.bytes.length < 2 ^ 31)
    (hpos : pos ≤ str.bytes.length) (hfuel : str.bytes.length + 1 < pos + fuel) :
    Fails (stringFindRecurse (memoryOf str dst) fuel pos str.bytes.length 0 0) Fault.outside := by
  induction fuel generalizing pos with
  | zero => omega
  | succ fuel ih =>
      have hlast : dst.terminated[0]? = some 0 := by simp [CString.terminated, hempty]
      unfold stringFindRecurse
      refine fails_int_bind (by omega) (by omega) ?_
      rw [show (pos + (0 - 0) : Int) = (pos : Nat) by omega]
      rcases Nat.lt_or_eq_of_le hpos with hlt | rfl
      · have hbyte : str.bytes[pos]? = some str.bytes[pos] := List.getElem?_eq_getElem hlt
        refine fails_load_bind memoryOf_first ((str.terminated_of_lt hlt).trans hbyte) ?_
        refine fails_load_bind (i := 0) memoryOf_second hlast ?_
        rw [if_neg (str.ne_zero_of_getElem? hbyte)]
        refine fails_int_bind (by omega) (by omega) ?_
        rw [if_neg (by unfold toSize; omega),
          show (pos + 1 : Int) = (pos + 1 : Nat) by omega, toSize_natCast (by omega)]
        exact ih hlt (by omega)
      · refine fails_load_bind memoryOf_first str.terminated_length ?_
        refine fails_load_bind (i := 0) memoryOf_second hlast ?_
        rw [if_pos rfl, if_neg (by omega)]
        refine fails_int_bind (by omega) (by omega) ?_
        obtain ⟨fuel, rfl⟩ := Nat.exists_eq_succ_of_ne_zero (by omega : fuel ≠ 0)
        unfold stringFindRecurse
        refine fails_int_bind (by omega) (by omega) ?_
        rw [show (str.bytes.length + (0 - (0 - 1)) : Int) = (str.bytes.length + 1 : Nat) by omega]
        exact (fails_load memoryOf_first (CString.terminated_beyond (Nat.lt_succ_self _))).bind

/-- Whatever the text, a search for the empty word reads beyond its terminator. -/
theorem fails_stringFind_empty (hempty : dst.bytes = []) (hstr : str.bytes.length < 2 ^ 31)
    (hfuel : str.bytes.length + 1 < fuel) :
    Fails (stringFind (memoryOf str dst) fuel) Fault.outside := by
  have hzero : dst.bytes.length = 0 := by rw [hempty, List.length_nil]
  have hdst : dst.bytes.length < 2 ^ 31 := by omega
  unfold stringFind
  refine (returns_stringLen memoryOf_first hstr (by omega)).bind_fails ?_
  refine (returns_stringLen memoryOf_second hdst (by omega)).bind_fails ?_
  simp only [toSize_natCast hstr, toInt_of_lt hstr, toSize_natCast hdst, toInt_of_lt hdst]
  rw [if_neg (by omega), hzero]
  exact fails_stringFindRecurse_empty hempty hstr (Nat.zero_le _) (by omega)

/-- `string_find` stays inside both strings, and finds the empty word somewhere. -/
def FindsInside (str dst : CString) : Prop :=
  ∃ r, (∀ᶠ fuel in atTop,
      Returns (stringFind (memoryOf str dst) fuel) (Read.Inside (memoryOf str dst)) r) ∧
    (dst.bytes = [] → 0 ≤ r ∧ r ≤ str.bytes.length)

theorem not_findsInside_of_empty (hempty : dst.bytes = []) (hstr : str.bytes.length < 2 ^ 31) :
    ¬ FindsInside str dst := by
  rintro ⟨r, hreturns, -⟩
  obtain ⟨fuel, hfuel, hreturns⟩ :=
    ((eventually_gt_atTop (str.bytes.length + 1)).and hreturns).exists
  exact hreturns.not_fails (fails_stringFind_empty hempty hstr hfuel)

/-- The empty word is the only one the search runs away with. -/
theorem findsInside_iff (str dst : CString) (hstr : str.bytes.length < 2 ^ 31)
    (hdst : dst.bytes.length < 2 ^ 31) : FindsInside str dst ↔ dst.bytes ≠ [] := by
  constructor
  · intro hfinds hempty
    exact not_findsInside_of_empty hempty hstr hfinds
  · intro hne
    obtain ⟨r, -, hreturns⟩ := findsFirst hne hstr hdst
    exact ⟨r, hreturns, fun hempty => absurd hempty hne⟩

theorem findsInside_iff_abc :
    FindsInside (.ofBytes [97, 98, 99]) (.ofBytes [98, 99]) ↔ [98, 99] ≠ ([] : List UInt8) :=
  findsInside_iff (.ofBytes [97, 98, 99]) (.ofBytes [98, 99]) (by decide) (by decide)

theorem not_findsInside_abc : ¬ FindsInside (.ofBytes [97, 98, 99]) (.ofBytes []) :=
  not_findsInside_of_empty rfl (by decide)

end CodeSlices.StringFind
