import CodeSlices.Qqwry.Search

/-!
# Locations in the file

The ways in which a record gives its country and its area, and that `getIPRecord` follows each of
them.
-/

namespace CodeSlices.Qqwry

variable {data country area str tail : List UInt8} {first last offset : UInt32}
  {pos record next : Nat} {u : Uninitialised} {c flag : UInt8}

/-- A string that `readString` reads whole. -/
def StringAt (data : List UInt8) (pos : Nat) (str : List UInt8) : Prop :=
  (∃ tail, data.drop pos = str ++ 0 :: tail) ∧ 0 ∉ str ∧ str.length < 80

inductive AreaAt (data : List UInt8) : Nat → List UInt8 → Prop
  | inline {pos : Nat} {area : List UInt8} (hflag : ∀ c ∈ area.head?, c ≠ 1 ∧ c ≠ 2)
      (hstring : StringAt data pos area) : AreaAt data pos area
  | redirect {pos : Nat} {flag : UInt8} {tail area : List UInt8}
      (hdrop : data.drop pos = flag :: tail) (hflag : flag = 1 ∨ flag = 2) (hlen : 3 ≤ tail.length)
      (hne : load3 data (pos + 1) ≠ 0)
      (hstring : StringAt data (load3 data (pos + 1)).toNat area) : AreaAt data pos area
  | unknown {pos : Nat} {flag : UInt8} {tail : List UInt8} (hdrop : data.drop pos = flag :: tail)
      (hflag : flag = 1 ∨ flag = 2) (hlen : 3 ≤ tail.length) (hzero : load3 data (pos + 1) = 0) :
      AreaAt data pos unknowArea

/-- A country behind a redirection of the whole location, and where its area is. -/
inductive CountryAt (data : List UInt8) : Nat → List UInt8 → Nat → Prop
  | inline {pos : Nat} {country : List UInt8} (hflag : ∀ c ∈ country.head?, c ≠ 2)
      (hstring : StringAt data pos country) :
      CountryAt data pos country (pos + country.length + 1)
  | redirect {pos : Nat} {tail country : List UInt8} (hdrop : data.drop pos = 2 :: tail)
      (hlen : 3 ≤ tail.length) (hstring : StringAt data (load3 data (pos + 1)).toNat country) :
      CountryAt data pos country (pos + 4)

/-- The location that a record gives, in one of its three modes. -/
inductive LocationAt (data : List UInt8) (record : Nat) : List UInt8 → List UInt8 → Prop
  | inline {country area : List UInt8} (hflag : ∀ c ∈ country.head?, c ≠ 1 ∧ c ≠ 2)
      (hcountry : StringAt data (record + 4) country)
      (harea : AreaAt data (record + 4 + country.length + 1) area) :
      LocationAt data record country area
  | country {tail country area : List UInt8} (hdrop : data.drop (record + 4) = 2 :: tail)
      (hlen : 3 ≤ tail.length)
      (hcountry : StringAt data (load3 data (record + 4 + 1)).toNat country)
      (harea : AreaAt data (record + 8) area) : LocationAt data record country area
  | whole {tail country area : List UInt8} {next : Nat}
      (hdrop : data.drop (record + 4) = 1 :: tail) (hlen : 3 ≤ tail.length)
      (hcountry : CountryAt data (load3 data (record + 4 + 1)).toNat country next)
      (harea : AreaAt data next area) : LocationAt data record country area

/-! ### Places -/

theorem length_of_drop (h : data.drop pos = str ++ c :: tail) :
    pos + str.length + 1 + tail.length = data.length := by
  have hlen := congrArg List.length h
  rw [List.length_drop, List.length_append, List.length_cons] at hlen
  omega

theorem length_of_drop_cons (h : data.drop pos = c :: tail) :
    pos + 1 + tail.length = data.length := by
  have hlen := congrArg List.length h
  rw [List.length_drop, List.length_cons] at hlen
  omega

theorem StringAt.lt (h : StringAt data pos str) : pos + str.length < data.length := by
  obtain ⟨⟨tail, hdrop⟩, -, -⟩ := h
  have := length_of_drop hdrop
  omega

/-- The character that a string starts with, with its terminator. -/
theorem StringAt.exists_cons (h : StringAt data pos str) {p : UInt8 → Prop} (hzero : p 0)
    (hp : ∀ c ∈ str.head?, p c) : ∃ c tail, data.drop pos = c :: tail ∧ p c := by
  obtain ⟨⟨tail, hdrop⟩, -, -⟩ := h
  cases str with
  | nil => exact ⟨0, tail, hdrop, hzero⟩
  | cons c str => exact ⟨c, str ++ 0 :: tail, hdrop, hp c rfl⟩

theorem toNat_ofNat_of_lt {n : Nat} (hlt : n < 2 ^ 32) : (UInt32.ofNat n).toNat = n := by
  rw [UInt32.toNat_ofNat']
  exact Nat.mod_eq_of_lt hlt

theorem toNat_add_of_lt {k : UInt32} (hlt : offset.toNat + k.toNat < 2 ^ 32) :
    (offset + k).toNat = offset.toNat + k.toNat := by
  rw [UInt32.toNat_add]
  exact Nat.mod_eq_of_lt hlt

/-! ### The parts of a location -/

/-- Anywhere in the open file. -/
abbrev Open (data : List UInt8) (first last : UInt32) (s : EvaIPSeeker) : Prop :=
  ∃ pos, Stands data first last (some pos) s

theorem readString_does (h : StringAt data offset.toNat str) :
    Does (Open data first last) (readString offset) str
      (Stands data first last (some (offset.toNat + str.length + 1))) := by
  obtain ⟨⟨tail, hdrop⟩, hnot, hlt⟩ := h
  exact (seekg_does offset).bind (getline_does hdrop hnot hlt)

theorem seekGet_does {β : Type} {next : UInt8 → Seek β} {b : β} {Q : EvaIPSeeker → Prop}
    (hdrop : data.drop offset.toNat = c :: tail) (flag : UInt8)
    (hnext : Does (Stands data first last (some (offset.toNat + 1))) (next c) b Q) :
    Does (Open data first last) (seekg offset >>= fun _ => getFlag flag >>= next) b Q :=
  (seekg_does offset).bind ((getFlag_does hdrop flag).bind hnext)

theorem readArea_does (h : AreaAt data offset.toNat area) :
    Does (Open data first last) (readArea u offset) area (Open data first last) := by
  generalize hpos : offset.toNat = pos at h
  cases h with
  | inline hflag hstring =>
      subst hpos
      obtain ⟨c, tail, hdrop, hc⟩ := hstring.exists_cons (p := fun c => c ≠ 1 ∧ c ≠ 2)
        (by decide) hflag
      refine seekGet_does hdrop _ ?_
      rw [if_neg fun h => h.elim hc.1 hc.2]
      exact ((readString_does hstring).pre fun s hs => ⟨_, hs⟩).post fun s hs => ⟨_, hs⟩
  | redirect hdrop hflag hlen hne hstring =>
      subst hpos
      refine seekGet_does hdrop _ ?_
      rw [if_pos hflag]
      have hlength := length_of_drop_cons hdrop
      refine (read3_does (by omega)).bind ?_
      rw [if_pos hne]
      exact ((readString_does hstring).pre fun s hs => ⟨_, hs⟩).post fun s hs => ⟨_, hs⟩
  | unknown hdrop hflag hlen hzero =>
      subst hpos
      refine seekGet_does hdrop _ ?_
      rw [if_pos hflag]
      have hlength := length_of_drop_cons hdrop
      refine (read3_does (by omega)).bind ?_
      rw [if_neg (not_not.mpr hzero)]
      exact (Does.pure _).post fun s hs => ⟨_, hs⟩

theorem areaEnd_does (hsmall : data.length < 2 ^ 32) (hpos : pos ≤ data.length)
    (harea : AreaAt data pos area) :
    Does (Stands data first last (some pos))
      (do
        let areaOffset ← tellg
        let area ← readArea u areaOffset
        closeFile
        return country ++ area) (country ++ area) (Stands data first last none) := by
  refine tellg_does.bind ?_
  have harea' : AreaAt data (UInt32.ofNat pos).toNat area := by
    rw [toNat_ofNat_of_lt (by omega)]
    exact harea
  refine ((readArea_does harea').pre fun s hs => ⟨_, hs⟩).bind ?_
  exact Does.exists_index fun pos => closeFile_does.bind (Does.pure _)

theorem getIPRecord_does (hsmall : data.length < 2 ^ 32)
    (h : LocationAt data offset.toNat country area) (place : Option Nat) :
    Does (Stands data first last place) (getIPRecord u offset) (country ++ area)
      (Stands data first last none) := by
  refine (openFile_does.pre fun s hs => ⟨place, hs⟩).bind ?_
  have hfour : (4 : UInt32).toNat = 4 := rfl
  have height : (8 : UInt32).toNat = 8 := rfl
  cases h with
  | inline hflag hcountry harea =>
      have hlt := hcountry.lt
      have hoffset : (offset + 4).toNat = offset.toNat + 4 := toNat_add_of_lt (by omega)
      obtain ⟨c, tail, hdrop, hc⟩ := hcountry.exists_cons (p := fun c => c ≠ 1 ∧ c ≠ 2)
        (by decide) hflag
      refine seekGet_does (hoffset ▸ hdrop) _ ?_
      rw [if_neg hc.1, if_neg hc.2]
      refine putback_does.bind (tellg_does.bind ?_)
      have hcountry' : StringAt data (UInt32.ofNat (offset + 4).toNat).toNat country := by
        rw [toNat_ofNat_of_lt (by omega), hoffset]
        exact hcountry
      refine ((readString_does hcountry').pre fun s hs => ⟨_, hs⟩).bind ?_
      rw [toNat_ofNat_of_lt (by omega), hoffset]
      exact areaEnd_does hsmall (by omega) harea
  | country hdrop hlen hcountry harea =>
      have hlength := length_of_drop_cons hdrop
      have hoffset : (offset + 4).toNat = offset.toNat + 4 := toNat_add_of_lt (by omega)
      have hoffset' : (offset + 8).toNat = offset.toNat + 8 := toNat_add_of_lt (by omega)
      refine seekGet_does (hoffset ▸ hdrop) _ ?_
      rw [if_neg (by decide), if_pos rfl, hoffset]
      refine (read3_does (by omega)).bind ?_
      refine ((readString_does hcountry).pre fun s hs => ⟨_, hs⟩).bind ?_
      refine ((readArea_does (hoffset' ▸ harea)).pre fun s hs => ⟨_, hs⟩).bind ?_
      exact Does.exists_index fun pos => closeFile_does.bind (Does.pure _)
  | whole hdrop hlen hcountry harea =>
      have hlength := length_of_drop_cons hdrop
      have hoffset : (offset + 4).toNat = offset.toNat + 4 := toNat_add_of_lt (by omega)
      refine seekGet_does (hoffset ▸ hdrop) _ ?_
      rw [if_pos rfl, hoffset]
      refine (read3_does (by omega)).bind ?_
      generalize load3 data (offset.toNat + 4 + 1) = countryOffset at hcountry ⊢
      generalize hplace : countryOffset.toNat = place at hcountry
      cases hcountry with
      | inline hflag hstring =>
          subst hplace
          have hlt := hstring.lt
          obtain ⟨c, tail, hdrop, hc⟩ := hstring.exists_cons (p := fun c => c ≠ 2)
            (by decide) hflag
          refine (seekGet_does hdrop _ ?_).pre fun s hs => ⟨_, hs⟩
          rw [readCountry, if_neg hc]
          refine ((readString_does hstring).pre fun s hs => ⟨_, hs⟩).bind ?_
          exact areaEnd_does hsmall (by omega) harea
      | redirect hdrop hlen hstring =>
          subst hplace
          have hlength := length_of_drop_cons hdrop
          have hfourth : (countryOffset + 4).toNat = countryOffset.toNat + 4 :=
            toNat_add_of_lt (by omega)
          refine (seekGet_does hdrop _ ?_).pre fun s hs => ⟨_, hs⟩
          have hread : Does (Stands data first last (some (countryOffset.toNat + 1)))
              (readCountry 2 countryOffset) country
              (Stands data first last (some (countryOffset.toNat + 4))) := by
            rw [readCountry, if_pos rfl, ← hfourth]
            refine (read3_does (by omega)).bind ?_
            refine ((readString_does hstring).pre fun s hs => ⟨_, hs⟩).bind ?_
            exact ((seekg_does _).pre fun s hs => ⟨_, hs⟩).bind (Does.pure _)
          exact hread.bind (areaEnd_does hsmall (by omega) harea)

/-! ### A string that is too long -/

/-- The stream has failed, and does nothing until it is opened again. -/
def Failed (s : EvaIPSeeker) : Prop := s.ipFile.fail = true

theorem seekg_of_failed (offset : UInt32) : Does Failed (seekg offset) () Failed := by
  refine Does.modify fun s (hs : s.ipFile.fail = true) => ?_
  change (s.ipFile.seekg offset.toNat).fail = true
  rw [IStream.seekg_of_fail hs]
  exact hs

theorem tellg_of_failed : Does Failed tellg 0xFFFFFFFF Failed := by
  refine Does.modifyGet fun s (hs : s.ipFile.fail = true) => ?_
  rw [IStream.tellg_of_fail hs]
  exact ⟨rfl, hs⟩

theorem getFlag_of_failed (flag : UInt8) : Does Failed (getFlag flag) flag Failed := by
  refine Does.modifyGet fun s (hs : s.ipFile.fail = true) => ?_
  rw [IStream.get_of_fail hs]
  exact ⟨rfl, hs⟩

theorem read3_of_failed : Gives Failed read3 (fun _ => Failed) := by
  refine Gives.modifyGet fun s (hs : s.ipFile.fail = true) => ?_
  change (s.ipFile.read 3).2.fail = true
  rw [IStream.read_of_fail hs]
  exact hs

theorem readString_of_failed (offset : UInt32) : Does Failed (readString offset) [] Failed := by
  refine (seekg_of_failed offset).bind (Does.modifyGet fun s (hs : s.ipFile.fail = true) => ?_)
  rw [IStream.getline_of_fail hs]
  exact ⟨rfl, hs⟩

theorem readArea_of_failed (offset : UInt32) : Gives Failed (readArea u offset)
    (fun area s => (area = [] ∨ area = unknowArea) ∧ Failed s) := by
  refine Gives.bind_does (seekg_of_failed offset) ?_
  refine Gives.bind_does (getFlag_of_failed _) ?_
  split
  · refine read3_of_failed.bind fun areaOffset => ?_
    split
    · exact Gives.of_does (readString_of_failed _) fun s hs => ⟨.inl rfl, hs⟩
    · exact Gives.of_does (Does.pure _) fun s hs => ⟨.inr rfl, hs⟩
  · exact Gives.of_does (readString_of_failed _) fun s hs => ⟨.inl rfl, hs⟩

/-- A country of 80 bytes or more is cut, and its area is lost. -/
theorem getIPRecord_of_long_country (hsmall : data.length < 2 ^ 32)
    (hdrop : data.drop (offset.toNat + 4) = country ++ tail) (hnot : 0 ∉ country)
    (hlong : 80 ≤ country.length) (hflag : ∀ c ∈ country.head?, c ≠ 1 ∧ c ≠ 2)
    (place : Option Nat) :
    Gives (Stands data first last place) (getIPRecord u offset) (fun location _ =>
      location = country.take 79 ∨ location = country.take 79 ++ unknowArea) := by
  have hlength := congrArg List.length hdrop
  rw [List.length_drop, List.length_append] at hlength
  have hoffset : (offset + 4).toNat = offset.toNat + 4 := by
    have hfour : (4 : UInt32).toNat = 4 := rfl
    exact toNat_add_of_lt (by omega)
  obtain ⟨c, country', rfl⟩ : ∃ c country', country = c :: country' :=
    List.exists_cons_of_length_pos (by omega)
  have hc := hflag c rfl
  have hline : Does (Stands data first last (some (offset + 4).toNat)) getline
      ((c :: country').take 79) Failed := by
    refine Does.modifyGet fun s hs => ?_
    rw [hs.standing _ rfl, hoffset]
    exact IStream.getline_long hdrop hnot hlong (by decide)
  refine Gives.bind_does (openFile_does.pre fun s hs => ⟨place, hs⟩) ?_
  refine Gives.bind_does (seekg_does _) ?_
  refine Gives.bind_does (getFlag_does (hoffset ▸ hdrop) _) ?_
  rw [if_neg hc.1, if_neg hc.2]
  refine Gives.bind_does putback_does (Gives.bind_does tellg_does ?_)
  have hself : UInt32.ofNat (offset + 4).toNat = offset + 4 := UInt32.ofNat_toNat
  have hstring : Does (Stands data first last (some (offset + 4).toNat))
      (readString (UInt32.ofNat (offset + 4).toNat)) ((c :: country').take 79) Failed := by
    rw [hself]
    exact ((seekg_does _).pre fun s hs => ⟨_, hs⟩).bind hline
  refine Gives.bind_does hstring (Gives.bind_does tellg_of_failed ?_)
  refine (readArea_of_failed _).bind fun area => ?_
  refine Gives.bind_does (Q := fun _ => area = [] ∨ area = unknowArea)
    (Does.modify fun s hs => hs.1) (Gives.of_does (Does.pure _) fun s harea => ?_)
  rcases harea with rfl | rfl
  · exact .inl (List.append_nil _)
  · exact .inr rfl

theorem getIPRecord_of_eighty : Gives
    (Stands (List.replicate 4 9 ++ (List.replicate 80 65 ++ [0, 66, 0])) 0 0 none)
    (getIPRecord ⟨0, 0, 0⟩ 0) (fun location _ =>
      location = List.replicate 79 65 ∨ location = List.replicate 79 65 ++ unknowArea) := by
  have hdrop : (List.replicate 4 (9 : UInt8) ++ (List.replicate 80 65 ++ [0, 66, 0])).drop
      ((0 : UInt32).toNat + 4) = List.replicate 80 65 ++ [0, 66, 0] := rfl
  exact getIPRecord_of_long_country (by decide +kernel) hdrop (by decide +kernel)
    (by decide +kernel) (by decide +kernel) none

end CodeSlices.Qqwry
