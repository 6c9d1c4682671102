import CodeSlices.Qqwry.Lookup

/-!
# Files written from a table

A table of ranges of addresses with their locations, the data file for it, and that the lookups in
this file give what the table has.
-/

namespace CodeSlices.Qqwry

open LittleEndian (encode value_encode length_encode)

/-- A string that can stand in a record as it is. -/
structure Plain (str : List UInt8) : Prop where
  nonzero : 0 ∉ str
  short : str.length < 80
  unmarked : ∀ c ∈ str.head?, c ≠ 1 ∧ c ≠ 2

structure Row where
  startIP : UInt32
  endIP : UInt32
  country : List UInt8
  area : List UInt8
  range : startIP ≤ endIP
  country_plain : Plain country
  area_plain : Plain area

/-- The ranges are apart and in their order. -/
def Ordered (rows : List Row) : Prop := rows.Pairwise fun a b => a.endIP < b.startIP

def Row.record (row : Row) : List UInt8 :=
  encode 4 row.endIP.toNat ++ (row.country ++ 0 :: (row.area ++ [0]))

def records (rows : List Row) : List UInt8 := rows.flatMap Row.record

/-- The index area for records from an offset on. -/
def indexArea : Nat → List Row → List UInt8
  | _, [] => []
  | offset, row :: rows =>
      (encode 4 row.startIP.toNat ++ encode 3 offset) ++
        indexArea (offset + row.record.length) rows

/-- The offset of the index area. -/
def indexOffset (rows : List Row) : Nat := 8 + (records rows).length

def dataFile (rows : List Row) : List UInt8 :=
  encode 4 (indexOffset rows) ++ (encode 4 (indexOffset rows + 7 * (rows.length - 1)) ++
    (records rows ++ indexArea 8 rows))

variable {rows xs ys : List Row} {row : Row} {data rest : List UInt8} {pos v n c : Nat}

/-! ### The parts of the file -/

theorem load4_encode (hdrop : data.drop pos = encode 4 v ++ rest) (hlt : v < 2 ^ 32) :
    load4 data pos = UInt32.ofNat v := by
  have htake : (encode 4 v ++ rest).take 4 = encode 4 v := List.take_left' (length_encode 4 v)
  rw [load4, hdrop, htake, value_encode hlt]

theorem load3_encode (hdrop : data.drop pos = encode 3 v ++ rest) (hlt : v < 2 ^ 24) :
    load3 data pos = UInt32.ofNat v := by
  have htake : (encode 3 v ++ rest).take 3 = encode 3 v := List.take_left' (length_encode 3 v)
  rw [load3, hdrop, htake, value_encode hlt]

theorem length_indexArea (offset : Nat) (rows : List Row) :
    (indexArea offset rows).length = 7 * rows.length := by
  induction rows generalizing offset with
  | nil => rfl
  | cons row rows ih =>
      rw [indexArea, List.length_append, List.length_append, length_encode, length_encode, ih,
        List.length_cons]
      omega

theorem indexArea_append (offset : Nat) (xs ys : List Row) :
    indexArea offset (xs ++ ys) =
      indexArea offset xs ++ indexArea (offset + (records xs).length) ys := by
  induction xs generalizing offset with
  | nil => rfl
  | cons x xs ih =>
      have hlength : (records (x :: xs)).length = x.record.length + (records xs).length := by
        rw [records, List.flatMap_cons, List.length_append]
        rfl
      rw [List.cons_append, indexArea, indexArea, ih, hlength, Nat.add_assoc]
      exact (List.append_assoc _ _ _).symm

theorem records_append (xs ys : List Row) : records (xs ++ ys) = records xs ++ records ys :=
  List.flatMap_append

theorem drop_append_of_length {xs ys : List UInt8} (h : xs.length = n) (k : Nat) :
    (xs ++ ys).drop (n + k) = ys.drop k := by
  rw [← List.drop_drop, ← h, List.drop_left]

theorem length_dataFile (rows : List Row) :
    (dataFile rows).length = indexOffset rows + 7 * rows.length := by
  simp only [dataFile, List.length_append, length_encode, length_indexArea, indexOffset]
  omega

/-- The file behind its header. -/
theorem drop_dataFile (rows : List Row) (k : Nat) :
    (dataFile rows).drop (8 + k) = (records rows ++ indexArea 8 rows).drop k := by
  have hheader : 8 + k = 4 + (4 + k) := by omega
  rw [dataFile, hheader, drop_append_of_length (length_encode 4 _),
    drop_append_of_length (length_encode 4 _)]

theorem drop_record (hrows : rows = xs ++ row :: ys) :
    ∃ rest, (dataFile rows).drop (8 + (records xs).length) = row.record ++ rest := by
  refine ⟨records ys ++ indexArea 8 rows, ?_⟩
  rw [drop_dataFile, hrows, records_append, List.append_assoc, List.drop_left]
  exact List.append_assoc _ _ _

theorem drop_entry (hrows : rows = xs ++ row :: ys) :
    ∃ rest, (dataFile rows).drop (indexOffset rows + 7 * xs.length) =
      encode 4 row.startIP.toNat ++ (encode 3 (8 + (records xs).length) ++ rest) := by
  refine ⟨indexArea (8 + (records xs).length + row.record.length) ys, ?_⟩
  have hindex : indexArea 8 rows = indexArea 8 xs ++
      indexArea (8 + (records xs).length) (row :: ys) := by
    rw [hrows, indexArea_append]
  rw [indexOffset, Nat.add_assoc, drop_dataFile, drop_append_of_length rfl, hindex,
    ← length_indexArea 8 xs, List.drop_left, indexArea, List.append_assoc]

theorem exists_split (hc : c < rows.length) :
    ∃ xs ys, rows = xs ++ rows[c] :: ys ∧ xs.length = c := by
  refine ⟨rows.take c, rows.drop (c + 1), ?_, List.length_take_of_le hc.le⟩
  rw [← List.drop_eq_getElem_cons hc, List.take_append_drop]

/-! ### The index area -/

section Index

variable (hsmall : (dataFile rows).length < 2 ^ 24)
include hsmall

theorem indexOffset_lt : indexOffset rows < 2 ^ 24 := by
  rw [length_dataFile] at hsmall
  omega

theorem load4_first : load4 (dataFile rows) 0 = UInt32.ofNat (indexOffset rows) := by
  have hlt := indexOffset_lt hsmall
  exact load4_encode (v := indexOffset rows) List.drop_zero (by omega)

theorem toNat_load4_first : (load4 (dataFile rows) 0).toNat = indexOffset rows := by
  have hlt := indexOffset_lt hsmall
  rw [load4_first hsmall, toNat_ofNat_of_lt (by omega)]

theorem toNat_load4_last (hpos : 0 < rows.length) : (load4 (dataFile rows) 4).toNat =
    entry (load4 (dataFile rows) 0) (rows.length - 1) := by
  have hlt := length_dataFile rows
  have hdrop : (dataFile rows).drop 4 =
      encode 4 (indexOffset rows + 7 * (rows.length - 1)) ++ (records rows ++ indexArea 8 rows) :=
    drop_append_of_length (length_encode 4 _) 0
  rw [entry, toNat_load4_first hsmall, load4_encode hdrop (by omega),
    toNat_ofNat_of_lt (by omega)]

theorem startIP_split (hrows : rows = xs ++ row :: ys) :
    startIP (dataFile rows) (load4 (dataFile rows) 0) xs.length = row.startIP := by
  obtain ⟨rest, hdrop⟩ := drop_entry hrows
  rw [startIP, entry, toNat_load4_first hsmall, load4_encode hdrop (UInt32.toNat_lt _),
    UInt32.ofNat_toNat]

theorem toNat_recordOf_split (hrows : rows = xs ++ row :: ys) :
    (recordOf (dataFile rows) (load4 (dataFile rows) 0) xs.length).toNat =
      8 + (records xs).length := by
  have hlt : 8 + (records xs).length < 2 ^ 24 := by
    have hlen := indexOffset_lt hsmall
    rw [indexOffset, hrows, records_append, List.length_append] at hlen
    omega
  obtain ⟨rest, hdrop⟩ := drop_entry hrows
  have hoffset : (dataFile rows).drop (indexOffset rows + 7 * xs.length + 4) =
      encode 3 (8 + (records xs).length) ++ rest := by
    rw [← List.drop_drop, hdrop, List.drop_left' (length_encode 4 _)]
  rw [recordOf, entry, toNat_load4_first hsmall, load3_encode hoffset hlt,
    toNat_ofNat_of_lt (by omega)]

theorem endIP_split (hrows : rows = xs ++ row :: ys) :
    endIP (dataFile rows) (load4 (dataFile rows) 0) xs.length = row.endIP := by
  obtain ⟨rest, hdrop⟩ := drop_record hrows
  rw [Row.record, List.append_assoc] at hdrop
  rw [endIP, toNat_recordOf_split hsmall hrows, load4_encode hdrop (UInt32.toNat_lt _),
    UInt32.ofNat_toNat]

omit hsmall in
theorem locationAt_split (hrows : rows = xs ++ row :: ys) :
    LocationAt (dataFile rows) (8 + (records xs).length) row.country row.area := by
  obtain ⟨rest, hdrop⟩ := drop_record hrows
  have hcountry : (dataFile rows).drop (8 + (records xs).length + 4) =
      row.country ++ 0 :: (row.area ++ 0 :: rest) := by
    rw [← List.drop_drop, hdrop, Row.record, List.append_assoc,
      List.drop_left' (length_encode 4 _)]
    simp only [List.append_assoc, List.cons_append, List.nil_append]
  have harea : (dataFile rows).drop (8 + (records xs).length + 4 + row.country.length + 1) =
      row.area ++ 0 :: rest := by
    rw [← List.drop_drop, ← List.drop_drop, hcountry, List.drop_left, List.drop_one, List.tail_cons]
  exact .inline row.country_plain.unmarked
    ⟨⟨_, hcountry⟩, row.country_plain.nonzero, row.country_plain.short⟩
    (.inline row.area_plain.unmarked
      ⟨⟨_, harea⟩, row.area_plain.nonzero, row.area_plain.short⟩)

theorem startIP_dataFile (hc : c < rows.length) :
    startIP (dataFile rows) (load4 (dataFile rows) 0) c = rows[c].startIP := by
  obtain ⟨xs, ys, hrows, hlen⟩ := exists_split hc
  have hstart := startIP_split hsmall hrows
  rwa [hlen] at hstart

omit hsmall in
theorem Ordered.lt (hordered : Ordered rows) {c d : Nat} (hcd : c < d) (hd : d < rows.length) :
    rows[c].endIP < rows[d].startIP :=
  List.pairwise_iff_getElem.mp hordered c d (hcd.trans hd) hd hcd

theorem index_dataFile (hordered : Ordered rows) (hpos : 0 < rows.length) :
    Index (dataFile rows) (load4 (dataFile rows) 0) (load4 (dataFile rows) 4)
      (rows.length - 1) where
  last_eq := toNat_load4_last hsmall hpos
  inside := by
    rw [entry, toNat_load4_first hsmall, length_dataFile]
    omega
  small := by omega
  sorted := by
    intro c d hcd hd
    rw [startIP_dataFile hsmall (by omega), startIP_dataFile hsmall (by omega)]
    exact UInt32.lt_of_le_of_lt rows[c].range (hordered.lt hcd (by omega))
  records := by
    intro c hc
    obtain ⟨xs, ys, hrows, hlen⟩ := exists_split (show c < rows.length by omega)
    obtain ⟨rest, hdrop⟩ := drop_record hrows
    have hlength := congrArg List.length hdrop
    rw [List.length_drop, List.length_append, Row.record, List.length_append, length_encode]
      at hlength
    rw [← hlen, toNat_recordOf_split hsmall hrows]
    omega

theorem entry_dataFile (hordered : Ordered rows) (htwo : 2 ≤ rows.length)
    (hrows : rows = xs ++ row :: ys) :
    Entry (dataFile rows) (rows.length - 1) xs.length row.country row.area where
  index := index_dataFile hsmall hordered (by omega)
  several := by omega
  entry_le := by
    rw [hrows, List.length_append, List.length_cons]
    omega
  valid := by
    have hlt := length_dataFile rows
    have hfirst := toNat_load4_first hsmall
    have hlast := toNat_load4_last hsmall (by omega)
    rw [entry, hfirst] at hlast
    have hmax : (0xFFFFFFFF : UInt32).toNat = 4294967295 := rfl
    constructor
    · intro h
      rw [h, hmax] at hfirst
      omega
    · intro h
      rw [h, hmax] at hlast
      omega
  location := by
    rw [toNat_recordOf_split hsmall hrows]
    exact locationAt_split hrows

theorem has_dataFile (hordered : Ordered rows) {ip : UInt32} (hrows : rows = xs ++ row :: ys)
    (hstart : row.startIP ≤ ip) (hend : ip ≤ row.endIP)
    (hfirst : ∀ first ∈ rows.head?, first.startIP ≠ ip) :
    Entry.Has (dataFile rows) (rows.length - 1) xs.length ip := by
  have hlt : xs.length < rows.length := by
    rw [hrows, List.length_append, List.length_cons]
    omega
  refine ⟨⟨by omega, ?_, fun d hd hdn => ?_⟩, ?_, .inr ?_⟩
  · rw [startIP_split hsmall hrows]
    exact hstart
  · have hget : rows[xs.length] = row := by
      simp only [hrows, List.getElem_append_right (Nat.le_refl _), Nat.sub_self,
        List.getElem_cons_zero]
    rw [startIP_dataFile hsmall (by omega)]
    refine UInt32.lt_of_le_of_lt hend ?_
    rw [← hget]
    exact hordered.lt hd (by omega)
  · rw [startIP_dataFile hsmall (by omega)]
    refine hfirst _ ?_
    rw [List.head?_eq_getElem?, List.getElem?_eq_getElem (by omega)]
    exact rfl
  · rw [endIP_split hsmall hrows]
    exact hend

theorem answers_dataFile (hordered : Ordered rows) (htwo : 2 ≤ rows.length) {text : Text}
    {ip : UInt64} (htext : EvaIPAddress.ofText text = ⟨true, ip⟩) (hrow : row ∈ rows)
    (hstart : row.startIP ≤ ip.toUInt32) (hend : ip.toUInt32 ≤ row.endIP)
    (hfirst : ∀ first ∈ rows.head?, first.startIP ≠ ip.toUInt32) :
    Answers (dataFile rows) (rows.length - 1) text (row.country ++ row.area) := by
  obtain ⟨xs, ys, hrows⟩ := List.append_of_mem hrow
  exact ⟨xs.length, row.country, row.area, ip, entry_dataFile hsmall hordered htwo hrows, htext,
    has_dataFile hsmall hordered hrows hstart hend hfirst, rfl⟩

end Index

/-- A text asks for the location of a row; the first address of the table is left out. -/
def Asks (rows : List Row) (text : Text) (row : Row) : Prop :=
  ∃ ip, EvaIPAddress.ofText text = ⟨true, ip⟩ ∧ row ∈ rows ∧ row.startIP ≤ ip.toUInt32 ∧
    ip.toUInt32 ≤ row.endIP ∧ ∀ first ∈ rows.head?, first.startIP ≠ ip.toUInt32

/-- What `main` prints over the file of a table, for any addresses in its ranges in any order. -/
theorem printLocations_eq (hordered : Ordered rows) (htwo : 2 ≤ rows.length)
    (hsmall : (dataFile rows).length < 2 ^ 24) {queries : List (Text × Row)}
    (hqueries : ∀ q ∈ queries, Asks rows q.1 q.2) {fuel : Nat} (hfuel : rows.length ≤ fuel)
    (u : Uninitialised) (verbose : Bool) {s : EvaIPSeeker} (hidle : Idle (dataFile rows) s) :
    (printLocations u fuel verbose (queries.map Prod.fst) s).map Prod.fst =
      some (queries.flatMap fun q => line verbose q.1 (q.2.country ++ q.2.area)) := by
  have hanswers : ∀ q ∈ queries.map fun q => (q.1, q.2.country ++ q.2.area),
      Answers (dataFile rows) (rows.length - 1) q.1 q.2 := by
    rintro _ hq
    obtain ⟨q, hmem, rfl⟩ := List.mem_map.mp hq
    obtain ⟨ip, htext, hrow, hstart, hend, hfirst⟩ := hqueries q hmem
    exact answers_dataFile hsmall hordered htwo htext hrow hstart hend hfirst
  have hlt : rows.length - 1 < fuel := by omega
  have hdoes := printLocations_does (u := u) hlt verbose hanswers
  rw [List.map_map, List.flatMap_map] at hdoes
  exact hdoes.run_eq hidle

theorem Plain.single {c : UInt8} (h : c ≠ 0 ∧ c ≠ 1 ∧ c ≠ 2) : Plain [c] := by
  refine ⟨fun hmem => h.1 (List.mem_singleton.mp hmem).symm, by simp, ?_⟩
  rintro _ ⟨⟩
  exact h.2

theorem Plain.nil : Plain [] := ⟨List.not_mem_nil, by decide, fun _ h => nomatch h⟩

def sampleRows : List Row :=
  [⟨0, 9, [65], [], by decide, .single (by decide), .nil⟩,
    ⟨10, 300, [66], [67], by decide, .single (by decide), .single (by decide)⟩]

theorem printLocations_sample : (printLocations ⟨0, 0, 0⟩ 2 false
    [⟨"0.0.1.4".toList, by decide⟩, ⟨"0.0.0.5".toList, by decide⟩]
    ⟨some (dataFile sampleRows), .closed, 0, 0, fun _ => 0, fun _ => 0⟩).map Prod.fst =
      some [66, 67, 10, 65, 10] := by
  have hordered : Ordered sampleRows := by
    unfold Ordered sampleRows
    decide
  have hasks : ∀ q ∈ [((⟨"0.0.1.4".toList, by decide⟩ : Text), sampleRows[1]),
      (⟨"0.0.0.5".toList, by decide⟩, sampleRows[0])], Asks sampleRows q.1 q.2 := by
    simp only [List.forall_mem_cons, List.not_mem_nil, false_implies, implies_true, and_true]
    constructor
    · refine ⟨260, by decide +kernel, List.getElem_mem _, by decide, by decide, ?_⟩
      rintro _ ⟨⟩
      decide
    · refine ⟨5, by decide +kernel, List.getElem_mem _, by decide, by decide, ?_⟩
      rintro _ ⟨⟩
      decide
  exact printLocations_eq hordered (by decide) (by decide +kernel) hasks (by decide) ⟨0, 0, 0⟩
    false ⟨rfl, rfl⟩

end CodeSlices.Qqwry
