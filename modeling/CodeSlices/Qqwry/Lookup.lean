import Mathlib.Tactic.IntervalCases
import CodeSlices.Qqwry.Location

/-!
# Lookups

`getIPLocation` from the text of an address to the location that the file holds for it, and the
output of `main`.
-/

namespace CodeSlices.Qqwry

variable {data country area : List UInt8} {first last : UInt32} {n c fuel : Nat}
  {u : Uninitialised} {text : Text} {ip : UInt64}

/-- The file is there and closed, as it is before the first lookup and after each one. -/
def Idle (data : List UInt8) (s : EvaIPSeeker) : Prop :=
  s.disk = some data ∧ s.ipFile.isOpen = false

/-- What `main` prints for the addresses it is given. -/
def printLocations (u : Uninitialised) (fuel : Nat) (verbose : Bool) :
    List Text → Seek (List UInt8)
  | [] => return []
  | ip :: ips => do
      let location ← getIPLocation u fuel ip
      let rest ← printLocations u fuel verbose ips
      return (if verbose then bytesOf ip.chars ++ [9] else []) ++ location ++ 10 :: rest

/-- A file that says where its index area is, and the location of one entry. -/
structure Entry (data : List UInt8) (n c : Nat) (country area : List UInt8) : Prop where
  index : Index data (load4 data 0) (load4 data 4) n
  several : 0 < n
  entry_le : c ≤ n
  valid : load4 data 0 ≠ 0xFFFFFFFF ∧ load4 data 4 ≠ 0xFFFFFFFF
  location : LocationAt data (recordOf data (load4 data 0) c).toNat country area

/-- The addresses of an entry, but for the first address of all. -/
def Entry.Has (data : List UInt8) (n c : Nat) (ip : UInt32) : Prop :=
  Floor data (load4 data 0) n ip c ∧ startIP data (load4 data 0) 0 ≠ ip ∧
    (startIP data (load4 data 0) c = ip ∨ ip ≤ endIP data (load4 data 0) c)

/-! ### The file is opened -/

theorem Stands.idle {s : EvaIPSeeker} (h : Stands data first last none s) : Idle data s :=
  ⟨h.disk, h.closed rfl⟩

theorem open_does : Does (Idle data)
    (modify fun s => { s with ipFile := s.ipFile.openFile s.disk } : Seek Unit) ()
    (fun s => ∃ first last, Stands data first last (some 0) s) := by
  refine Does.modify ?_
  rintro s ⟨hdisk, hclosed⟩
  refine ⟨s.firstIndexOffset, s.lastIndexOffset, hdisk, rfl, rfl, (fun h => nomatch h), ?_⟩
  rintro _ ⟨⟩
  change s.ipFile.openFile s.disk = _
  rw [hdisk, IStream.openFile_of_closed hclosed]

theorem fail_of_stands {s : EvaIPSeeker} {pos : Nat}
    (h : ∃ first last, Stands data first last (some pos) s) : s.ipFile.fail = false := by
  obtain ⟨first, last, hs⟩ := h
  rw [hs.standing pos rfl]
  rfl

theorem isQQWryExisted_does : Does (Idle data) isQQWryExisted true (Idle data) := by
  refine open_does.bind (Does.get_bind fun s hs => ?_)
  rw [fail_of_stands hs, if_neg Bool.false_ne_true]
  refine Does.exists_index fun first => Does.exists_index fun last => ?_
  exact (closeFile_does.post fun s hs => hs.idle).bind (Does.pure _)

theorem getIndexOffset_does (hle : 8 ≤ data.length) :
    Does (fun s => ∃ first last, Stands data first last (some 0) s) getIndexOffset
      (!(load4 data 0 = 0xFFFFFFFF || load4 data 4 = 0xFFFFFFFF))
      (Stands data (load4 data 0) (load4 data 4) (some 8)) := by
  refine Does.exists_index fun first => Does.exists_index fun last => ?_
  have hseek : Does (Stands data first last (some 0)) (seekg 0) ()
      (Stands data first last (some 0)) := (seekg_does 0).pre fun s hs => ⟨0, hs⟩
  refine hseek.bind ((read4_does (by omega)).bind ((read4_does (by omega)).bind ?_))
  refine (Does.modify (Q := Stands data (load4 data 0) (load4 data 4) (some 8))
    fun s hs => ?_).bind (Does.pure _)
  exact ⟨hs.disk, rfl, rfl, (fun h => nomatch h), hs.standing⟩

/-! ### The location is found -/

theorem Entry.locate_does {address : EvaIPAddress} (hentry : Entry data n c country area)
    (hhas : Entry.Has data n c address.mIP.toUInt32) (hfuel : n < fuel) :
    Does (Idle data) (locate u fuel address) (country ++ area) (Idle data) := by
  obtain ⟨hfloor, hne, hin⟩ := hhas
  have hlen : 8 ≤ data.length := by
    have hrecord := hentry.index.records c hentry.entry_le
    have hinside := hentry.index.entry_le (Nat.succ_le_of_lt hentry.several)
    rw [entry] at hinside
    omega
  refine isQQWryExisted_does.bind ?_
  rw [if_neg (by decide)]
  refine open_does.bind (Does.get_bind fun s hs => ?_)
  rw [fail_of_stands hs, if_neg Bool.false_ne_true]
  refine (getIndexOffset_does hlen).bind ?_
  have hvalid : (!(load4 data 0 = 0xFFFFFFFF || load4 data 4 = 0xFFFFFFFF)) = true := by
    rw [decide_eq_false hentry.valid.1, decide_eq_false hentry.valid.2]
    rfl
  rw [hvalid, if_neg (by decide)]
  refine (hentry.index.searchIP_does hentry.several hfuel hfloor (some 8)).bind ?_
  rw [if_neg hne, if_pos hin]
  exact (getIPRecord_does hentry.index.small hentry.location none).post fun s hs => hs.idle

theorem Entry.getIPLocation_does (hentry : Entry data n c country area)
    (htext : EvaIPAddress.ofText text = ⟨true, ip⟩) (hhas : Entry.Has data n c ip.toUInt32)
    (hfuel : n < fuel) :
    Does (Idle data) (getIPLocation u fuel text) (country ++ area) (Idle data) := by
  unfold getIPLocation
  rw [htext]
  exact hentry.locate_does hhas hfuel

/-- A lookup gives the location of the entry that has the address, through whatever redirections
the file has for it and whatever is left of earlier lookups. -/
theorem getIPLocation_eq (hentry : Entry data n c country area)
    (htext : EvaIPAddress.ofText text = ⟨true, ip⟩) (hhas : Entry.Has data n c ip.toUInt32)
    (hfuel : n < fuel) (u : Uninitialised) {s : EvaIPSeeker} (hidle : Idle data s) :
    (getIPLocation u fuel text s).map Prod.fst = some (country ++ area) :=
  (hentry.getIPLocation_does htext hhas hfuel).run_eq hidle

/-- Two entries, of which the second one is redirected as a whole and then for each of its parts. -/
def redirected : List UInt8 :=
  [35, 0, 0, 0, 42, 0, 0, 0, 5, 0, 0, 0, 0, 0, 20, 0, 0, 0, 1, 22, 0, 0, 2, 30, 0, 0, 2, 33, 0, 0,
    65, 66, 0, 67, 0, 0, 0, 0, 0, 8, 0, 0, 10, 0, 0, 0, 14, 0, 0]

theorem entry_redirected : Entry redirected 1 1 [65, 66] [67] where
  index := by
    refine ⟨by decide, by decide, by decide, fun c d hcd hd => ?_, fun c hc => ?_⟩
    · obtain ⟨rfl, rfl⟩ : c = 0 ∧ d = 1 := by omega
      decide
    · interval_cases c <;> decide
  several := by decide
  entry_le := by decide
  valid := by decide
  location := by
    have hcountry : CountryAt redirected 22 [65, 66] 26 :=
      .redirect (show redirected.drop 22 = 2 :: redirected.drop 23 from rfl) (by decide)
        ⟨⟨redirected.drop 33, rfl⟩, by decide, by decide⟩
    have harea : AreaAt redirected 26 [67] :=
      .redirect (show redirected.drop 26 = 2 :: redirected.drop 27 from rfl) (.inr rfl) (by decide)
        (by decide) ⟨⟨redirected.drop 35, rfl⟩, by decide, by decide⟩
    exact .whole (show _ = 1 :: redirected.drop 19 from rfl) (by decide) hcountry harea

theorem getIPLocation_redirected : (getIPLocation ⟨0, 0, 0⟩ 2 ⟨"0.0.0.15".toList, by decide⟩
    ⟨some redirected, .closed, 0, 0, fun _ => 0, fun _ => 0⟩).map Prod.fst =
      some [65, 66, 67] := by
  have htext : EvaIPAddress.ofText ⟨"0.0.0.15".toList, by decide⟩ = ⟨true, 15⟩ := by
    decide +kernel
  refine getIPLocation_eq entry_redirected htext ⟨⟨by decide, by decide, ?_⟩, by decide, ?_⟩
    (by decide) _ ⟨rfl, rfl⟩
  · intro d hd hdn
    omega
  · exact .inr (by decide)

/-! ### Many lookups -/

/-- A text and the location that a file has for its address. -/
def Answers (data : List UInt8) (n : Nat) (text : Text) (location : List UInt8) : Prop :=
  ∃ c country area ip, Entry data n c country area ∧ EvaIPAddress.ofText text = ⟨true, ip⟩ ∧
    Entry.Has data n c ip.toUInt32 ∧ location = country ++ area

def line (verbose : Bool) (text : Text) (location : List UInt8) : List UInt8 :=
  (if verbose then bytesOf text.chars ++ [9] else []) ++ location ++ [10]

/-- Lookups one after the other do not disturb each other. -/
theorem printLocations_does {queries : List (Text × List UInt8)} (hfuel : n < fuel)
    (verbose : Bool) (hqueries : ∀ q ∈ queries, Answers data n q.1 q.2) :
    Does (Idle data) (printLocations u fuel verbose (queries.map Prod.fst))
      (queries.flatMap fun q => line verbose q.1 q.2) (Idle data) := by
  induction queries with
  | nil => exact Does.pure _
  | cons q queries ih =>
      obtain ⟨hq, hrest⟩ := List.forall_mem_cons.mp hqueries
      obtain ⟨c, country, area, ip, hentry, htext, hhas, hlocation⟩ := hq
      have hline : (q :: queries).flatMap (fun q => line verbose q.1 q.2) =
          (if verbose then bytesOf q.1.chars ++ [9] else []) ++ (country ++ area) ++
            10 :: queries.flatMap (fun q => line verbose q.1 q.2) := by
        rw [List.flatMap_cons, line, hlocation]
        simp only [List.append_assoc, List.cons_append, List.nil_append]
      rw [hline]
      exact (hentry.getIPLocation_does htext hhas hfuel).bind ((ih hrest).bind (Does.pure _))

/-! ### The lookup ends -/

theorem readString_ends (offset : UInt32) : Ends (readString offset) :=
  (Ends.modify _).bind fun _ => Ends.modifyGet _

theorem readArea_ends (offset : UInt32) : Ends (readArea u offset) := by
  refine (Ends.modify _).bind fun _ => (Ends.modifyGet _).bind fun flag => ?_
  split
  · refine (Ends.modifyGet _).bind fun areaOffset => ?_
    split
    · exact readString_ends _
    · exact Ends.pure _
  · exact readString_ends _

theorem readCountry_ends (flag : UInt8) (offset : UInt32) : Ends (readCountry flag offset) := by
  unfold readCountry
  split
  · exact (Ends.modifyGet _).bind fun _ => (readString_ends _).bind fun _ =>
      (Ends.modify _).bind fun _ => Ends.pure _
  · exact readString_ends _

theorem getIPRecord_ends (offset : UInt32) : Ends (getIPRecord u offset) := by
  have harea (country : List UInt8) (offset : UInt32) : Ends (do
      let area ← readArea u offset
      closeFile
      return country ++ area) :=
    (readArea_ends offset).bind fun _ => (Ends.modify _).bind fun _ => Ends.pure _
  refine (Ends.modify _).bind fun _ => (Ends.modify _).bind fun _ => ?_
  refine (Ends.modifyGet _).bind fun flag => ?_
  split
  · refine (Ends.modifyGet _).bind fun countryOffset => (Ends.modify _).bind fun _ => ?_
    refine (Ends.modifyGet _).bind fun flag => (readCountry_ends _ _).bind fun country => ?_
    exact (Ends.modifyGet _).bind fun areaOffset => harea country areaOffset
  · split
    · refine (Ends.modifyGet _).bind fun countryOffset => (readString_ends _).bind fun country => ?_
      exact harea country _
    · refine (Ends.modify _).bind fun _ => (Ends.modifyGet _).bind fun countryOffset => ?_
      refine (readString_ends _).bind fun country => ?_
      exact (Ends.modifyGet _).bind fun areaOffset => harea country areaOffset

theorem readRecordOffset_ends (ip : UInt32) (exit : Exit) : Ends (readRecordOffset ip exit) := by
  have hoffset (mOffset : UInt32) : Ends (readOffset mOffset) :=
    (Ends.modify _).bind fun _ => (Ends.modify _).bind fun _ => Ends.modifyGet _
  cases exit with
  | equal mOffset =>
      exact (hoffset mOffset).bind fun _ => (Ends.modify _).bind fun _ => Ends.pure _
  | done mOffset =>
      refine (hoffset mOffset).bind fun offset => (readIP_ends offset).bind fun midIP => ?_
      split <;> exact Ends.pure _

theorem searchIP_ends {ip : UInt32} {place : Option Nat} (hlast : last.toNat + 7 < 2 ^ 32)
    (hfuel : last.toNat + 3 ≤ fuel) :
    Gives (Stands data first last place) (searchIP u fuel ip) (fun _ _ => True) := by
  refine Gives.get_bind fun s hs => ?_
  rw [hs.firstIndexOffset, hs.lastIndexOffset]
  refine Gives.of_ends ((readIP_ends _).bind fun startIP => (readIP_ends _).bind fun _ => ?_)
  dsimp only
  split
  · exact Ends.pure _
  · split
    · exact Ends.pure _
    · refine Ends.bind ?_ (readRecordOffset_ends ip)
      rcases Nat.le_total first.toNat last.toNat with hle | hle
      · exact searchLoop_ends fuel hle hlast (by omega) _
      · obtain ⟨k, rfl⟩ : ∃ k, fuel = k + 1 := ⟨fuel - 1, by omega⟩
        exact searchLoop_ends_of_le (UInt32.le_iff_toNat_le.mpr hle) k _

theorem returned_ends {addr : EvaIPAddress} (h : addr.text.length < 16) :
    Ends (returned addr.toString) := by
  rw [EvaIPAddress.toString_of_lt h]
  exact Ends.pure _

theorem returned_stuck {addr : EvaIPAddress} (h : ¬ addr.text.length < 16)
    (P : EvaIPSeeker → Prop) : Stuck P (returned addr.toString) := by
  rw [EvaIPAddress.toString_of_not_lt h]
  exact fun _ _ => rfl

theorem text_of_invalid (h : (EvaIPAddress.ofText text).isValidIP = false) :
    (EvaIPAddress.ofText text).text.length < 16 := by
  have hzero : EvaIPAddress.ofText text = ⟨false, 0⟩ := by
    cases hparse : parse text.chars with
    | none => exact ofText_of_none hparse
    | some ip =>
        rw [ofText_of_some hparse] at h ⊢
        rw [decide_eq_false_iff_not, not_not] at h
        rw [h]
        rfl
  rw [hzero]
  decide +kernel

theorem getIPLocation_gives (hlen : 8 ≤ data.length) (hlast : (load4 data 4).toNat + 7 < 2 ^ 32)
    (hfuel : (load4 data 4).toNat + 3 ≤ fuel) (u : Uninitialised)
    (hprint : load4 data 0 ≠ 0xFFFFFFFF ∨ (EvaIPAddress.ofText text).text.length < 16) :
    Gives (Idle data) (getIPLocation u fuel text) (fun _ _ => True) := by
  unfold getIPLocation
  dsimp only
  split
  · exact Gives.of_ends (returned_ends (text_of_invalid ‹_›))
  · refine Gives.bind_does isQQWryExisted_does ?_
    rw [if_neg (by decide)]
    refine Gives.bind_does open_does (Gives.get_bind fun s hs => ?_)
    rw [fail_of_stands hs, if_neg Bool.false_ne_true]
    refine Gives.bind_does (getIndexOffset_does hlen) ?_
    split
    · rename_i hvalid
      have hfirst : load4 data 0 = 0xFFFFFFFF := by
        rw [Bool.not_eq_false', Bool.or_eq_true, decide_eq_true_eq, decide_eq_true_eq] at hvalid
        refine hvalid.resolve_right fun h => ?_
        rw [h] at hlast
        exact absurd hlast (by decide)
      have hplace := hprint.resolve_left (not_not.mpr hfirst)
      exact Gives.of_ends ((Ends.modify _).bind fun _ => returned_ends hplace)
    · exact (searchIP_ends hlast hfuel).bind fun offset =>
        Gives.of_ends (getIPRecord_ends offset)

/-- Without an index the address is printed, into a buffer that has no place for it. -/
theorem getIPLocation_stuck (hlen : 8 ≤ data.length) (hfirst : load4 data 0 = 0xFFFFFFFF)
    (hplace : ¬ (EvaIPAddress.ofText text).text.length < 16) (u : Uninitialised) :
    Stuck (Idle data) (getIPLocation u fuel text) := by
  have hvalid : ¬ (EvaIPAddress.ofText text).isValidIP = false :=
    fun h => hplace (text_of_invalid h)
  unfold getIPLocation
  dsimp only
  rw [if_neg hvalid]
  refine Stuck.bind_does isQQWryExisted_does ?_
  rw [if_neg (by decide)]
  refine Stuck.bind_does open_does (Stuck.get_bind fun s hs => ?_)
  rw [fail_of_stands hs, if_neg Bool.false_ne_true]
  refine Stuck.bind_does (getIndexOffset_does hlen) ?_
  rw [hfirst, decide_eq_true rfl, Bool.true_or, Bool.not_true, if_pos rfl]
  exact Stuck.bind_does (closeFile_does.pre fun s hs => hs) (returned_stuck hplace _)

/-- Whatever else the file holds, when the last offset of the index area leaves room for one more
entry a lookup ends, except for an address without place in `strIP` where the first offset is not
one. -/
theorem getIPLocation_ends (hlen : 8 ≤ data.length) (hlast : (load4 data 4).toNat + 7 < 2 ^ 32)
    (hfuel : (load4 data 4).toNat + 3 ≤ fuel) (u : Uninitialised) (text : Text)
    {s : EvaIPSeeker} (hidle : Idle data s) :
    (∃ location s', getIPLocation u fuel text s = some (location, s')) ↔
      load4 data 0 ≠ 0xFFFFFFFF ∨ (EvaIPAddress.ofText text).text.length < 16 := by
  by_cases hprint : load4 data 0 ≠ 0xFFFFFFFF ∨ (EvaIPAddress.ofText text).text.length < 16
  · obtain ⟨location, s', hrun, -⟩ := getIPLocation_gives hlen hlast hfuel u hprint s hidle
    exact iff_of_true ⟨location, s', hrun⟩ hprint
  · refine iff_of_false ?_ hprint
    obtain ⟨hfirst, hplace⟩ := not_or.mp hprint
    rintro ⟨location, s', hrun⟩
    rw [getIPLocation_stuck hlen (not_not.mp hfirst) hplace u s hidle] at hrun
    cases hrun

theorem getIPLocation_ends_zeros : ∃ location s',
    getIPLocation ⟨0, 0, 0⟩ 3 ⟨"1.2.3.4".toList, by decide⟩
      ⟨some (List.replicate 8 0), .closed, 0, 0, fun _ => 0, fun _ => 0⟩ = some (location, s') :=
  (getIPLocation_ends (by decide) (by decide) (by decide) _ _ ⟨rfl, rfl⟩).mpr (.inl (by decide))

end CodeSlices.Qqwry
