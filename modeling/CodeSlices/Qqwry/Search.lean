import CodeSlices.Qqwry.Reading

/-!
# The search in the index

The loop of `searchIP` over an index area whose entries are in the order of their first addresses,
and over any file.
-/

namespace CodeSlices.Qqwry

variable {data : List UInt8} {first last ip i j mOffset : UInt32} {n a b c : Nat}
  {u : Uninitialised}

/-- The offset of an entry of the index area. -/
def entry (first : UInt32) (c : Nat) : Nat := first.toNat + 7 * c

def startIP (data : List UInt8) (first : UInt32) (c : Nat) : UInt32 := load4 data (entry first c)

def recordOf (data : List UInt8) (first : UInt32) (c : Nat) : UInt32 :=
  load3 data (entry first c + 4)

def endIP (data : List UInt8) (first : UInt32) (c : Nat) : UInt32 :=
  load4 data (recordOf data first c).toNat

/-- An index area with the entries `0` to `n` inside the file. -/
structure Index (data : List UInt8) (first last : UInt32) (n : Nat) : Prop where
  last_eq : last.toNat = entry first n
  inside : entry first n + 7 ≤ data.length
  small : data.length < 2 ^ 32
  sorted : ∀ c d, c < d → d ≤ n → startIP data first c < startIP data first d
  records : ∀ c ≤ n, (recordOf data first c).toNat + 4 ≤ data.length

/-- The last entry whose first address is not above the address. -/
def Floor (data : List UInt8) (first : UInt32) (n : Nat) (ip : UInt32) (c : Nat) : Prop :=
  c ≤ n ∧ startIP data first c ≤ ip ∧ ∀ d, c < d → d ≤ n → ip < startIP data first d

/-- What the loop may end with, at that entry. -/
inductive Lands (data : List UInt8) (first : UInt32) (n : Nat) (ip : UInt32) (c : Nat) : Exit → Prop
  | equal (mOffset : UInt32) (hoffset : mOffset.toNat = entry first c) (hle : c ≤ n)
      (heq : startIP data first c = ip) : Lands data first n ip c (.equal mOffset)
  | done (mOffset : UInt32) (hoffset : mOffset.toNat = entry first c) (hle : c ≤ n)
      (hlt : startIP data first c < ip)
      (habove : ∀ d, c < d → d ≤ n → ip < startIP data first d) :
      Lands data first n ip c (.done mOffset)

/-! ### The middle -/

theorem compareIP_pos_iff (ip1 ip2 : UInt32) : compareIP ip1 ip2 > 0 ↔ ip2 < ip1 := by
  unfold compareIP
  split
  · rename_i h
    exact iff_of_true Int.one_pos h
  · rename_i h
    refine iff_of_false ?_ h
    split <;> decide

theorem compareIP_neg_iff (ip1 ip2 : UInt32) : compareIP ip1 ip2 < 0 ↔ ip1 < ip2 := by
  unfold compareIP
  split
  · rename_i h
    exact iff_of_false (by decide) (UInt32.lt_asymm h)
  · split
    · rename_i h
      exact iff_of_true (by decide) h
    · rename_i h
      exact iff_of_false (by decide) h

theorem compareIP_eq_zero_iff (ip1 ip2 : UInt32) : compareIP ip1 ip2 = 0 ↔ ip1 = ip2 := by
  have hpos := compareIP_pos_iff ip1 ip2
  have hneg := compareIP_neg_iff ip1 ip2
  rw [UInt32.lt_iff_toNat_lt] at hpos hneg
  rw [← UInt32.toNat_inj]
  omega

theorem compareIP_nonpos_iff (ip1 ip2 : UInt32) : compareIP ip1 ip2 ≤ 0 ↔ ip1 ≤ ip2 := by
  have hpos := compareIP_pos_iff ip1 ip2
  rw [UInt32.lt_iff_toNat_lt] at hpos
  rw [UInt32.le_iff_toNat_le]
  omega

theorem lt_trichotomy' (x y : UInt32) : x < y ∨ x = y ∨ y < x := by
  rw [UInt32.lt_iff_toNat_lt, UInt32.lt_iff_toNat_lt, ← UInt32.toNat_inj]
  exact Nat.lt_trichotomy _ _

theorem toNat_getMiddleOffset (hle : i.toNat ≤ j.toNat) (hlt : i.toNat + 7 < 2 ^ 32) :
    (getMiddleOffset i j).toNat =
      i.toNat + 7 * max 1 ((j.toNat - i.toNat) / 7 / 2) := by
  have hrecords : (((j - i) / 7) >>> 1).toNat = (j.toNat - i.toNat) / 7 / 2 := by
    rw [UInt32.toNat_shiftRight, UInt32.toNat_div, UInt32.toNat_sub_of_le _ _ hle]
    exact Nat.shiftRight_one _
  have hmax : (if ((j - i) / 7) >>> 1 = 0 then (1 : UInt32) else ((j - i) / 7) >>> 1).toNat =
      max 1 ((j.toNat - i.toNat) / 7 / 2) := by
    by_cases hzero : ((j - i) / 7) >>> 1 = 0
    · rw [if_pos hzero, ← hrecords, hzero]
      rfl
    · have hne : (((j - i) / 7) >>> 1).toNat ≠ 0 := fun h => hzero (UInt32.toNat_inj.mp h)
      rw [if_neg hzero, hrecords]
      omega
  unfold getMiddleOffset
  simp only
  have hseven : (7 : UInt32).toNat = 7 := rfl
  have hj : j.toNat < 2 ^ 32 := j.toNat_lt
  rw [UInt32.toNat_add, UInt32.toNat_mul, hmax, hseven]
  omega

theorem toNat_getMiddleOffset_entry (hi : i.toNat = entry first a) (hj : j.toNat = entry first b)
    (hle : a ≤ b) (hlt : entry first b + 7 < 2 ^ 32) :
    (getMiddleOffset i j).toNat = entry first (a + max 1 ((b - a) / 2)) := by
  have hdiff : (j.toNat - i.toNat) / 7 = b - a := by
    rw [hi, hj, entry, entry]
    omega
  have hij : i.toNat ≤ j.toNat := by
    rw [hi, hj, entry, entry]
    omega
  rw [toNat_getMiddleOffset hij (by omega), hdiff, hi, entry, entry]
  omega

/-! ### One turn of the loop -/

section Turn

variable {P Q : EvaIPSeeker → Prop} {midIP : UInt32} {exit : Exit} {fuel : Nat}
  (hlt : i < j) (hread : Does P (readIP (getMiddleOffset i j)) midIP P)
include hlt hread

theorem searchLoop_above (h : midIP < ip)
    (hrest : Does P (searchLoop ip fuel (getMiddleOffset i j) j (getMiddleOffset i j)) exit Q) :
    Does P (searchLoop ip (fuel + 1) i j mOffset) exit Q := by
  rw [searchLoop, if_pos hlt]
  refine hread.bind ?_
  rw [if_pos ((compareIP_pos_iff _ _).mpr h)]
  exact hrest

theorem searchLoop_below (h : ip < midIP) (hend : getMiddleOffset i j ≠ j)
    (hrest : Does P (searchLoop ip fuel i (getMiddleOffset i j) (getMiddleOffset i j)) exit Q) :
    Does P (searchLoop ip (fuel + 1) i j mOffset) exit Q := by
  rw [searchLoop, if_pos hlt]
  refine hread.bind ?_
  rw [if_neg fun hpos => UInt32.lt_asymm h ((compareIP_pos_iff _ _).mp hpos),
    if_pos ((compareIP_neg_iff _ _).mpr h), if_neg hend]
  exact hrest

theorem searchLoop_below_last (h : ip < midIP) (hend : getMiddleOffset i j = j)
    (hrest : Does P (searchLoop ip fuel i (j - 7) (j - 7)) exit Q) :
    Does P (searchLoop ip (fuel + 1) i j mOffset) exit Q := by
  rw [searchLoop, if_pos hlt]
  refine hread.bind ?_
  rw [if_neg fun hpos => UInt32.lt_asymm h ((compareIP_pos_iff _ _).mp hpos),
    if_pos ((compareIP_neg_iff _ _).mpr h), if_pos hend]
  exact hrest

theorem searchLoop_equal (h : midIP = ip) :
    Does P (searchLoop ip (fuel + 1) i j mOffset) (.equal (getMiddleOffset i j)) P := by
  subst h
  rw [searchLoop, if_pos hlt]
  refine hread.bind ?_
  rw [if_neg fun hpos => UInt32.lt_irrefl _ ((compareIP_pos_iff _ _).mp hpos),
    if_neg fun hneg => UInt32.lt_irrefl _ ((compareIP_neg_iff _ _).mp hneg)]
  exact Does.pure _

end Turn

/-! ### The loop over a sorted index -/

namespace Index

variable (hindex : Index data first last n)
include hindex

theorem entry_le (hc : c ≤ n) : entry first c + 7 ≤ data.length := by
  have hinside := hindex.inside
  rw [entry] at hinside ⊢
  omega

theorem readStart_does (hc : c ≤ n) (hoffset : mOffset.toNat = entry first c) :
    Does (Stands data first last none) (readIP mOffset) (startIP data first c)
      (Stands data first last none) := by
  have hle := hindex.entry_le hc
  exact (readIP_does hoffset (by omega)).pre fun s hs => ⟨none, hs⟩

theorem exists_middle (hi : i.toNat = entry first a) (hj : j.toNat = entry first b) (hab : a < b)
    (hbn : b ≤ n) : ∃ c, (getMiddleOffset i j).toNat = entry first c ∧ a < c ∧ c ≤ b ∧
      (c = b → b = a + 1) := by
  have hsmall := hindex.small
  have hb := hindex.entry_le hbn
  refine ⟨a + max 1 ((b - a) / 2), toNat_getMiddleOffset_entry hi hj hab.le (by omega), ?_, ?_, ?_⟩
  all_goals omega

theorem searchLoop_does (fuel : Nat) : ∀ {a b i j mOffset},
    i.toNat = entry first a → j.toNat = entry first b → a ≤ b → b ≤ n →
    startIP data first a < ip → (∀ d, b < d → d ≤ n → ip < startIP data first d) →
    (a = b → mOffset = i) → b - a < fuel →
    ∃ c exit, Lands data first n ip c exit ∧
      Does (Stands data first last none) (searchLoop ip fuel i j mOffset) exit
        (Stands data first last none) := by
  induction fuel with
  | zero =>
      intro a b i j mOffset _ _ _ _ _ _ _ hfuel
      exact absurd hfuel (Nat.not_lt_zero _)
  | succ fuel ih =>
      intro a b i j mOffset hi hj hab hbn hbelow habove hsame hfuel
      by_cases hlt : a = b
      · subst hlt
        have hstop : ¬ i < j := by
          rw [UInt32.lt_iff_toNat_lt, hi, hj]
          exact Nat.lt_irrefl _
        refine ⟨a, .done mOffset, .done mOffset ?_ hbn hbelow habove, ?_⟩
        · rw [hsame rfl, hi]
        · rw [searchLoop, if_neg hstop]
          exact Does.pure _
      · have hij : i < j := by
          rw [UInt32.lt_iff_toNat_lt, hi, hj, entry, entry]
          omega
        obtain ⟨c, hmid, hac, hcb, hone⟩ := hindex.exists_middle hi hj (by omega) hbn
        have hread := hindex.readStart_does (hcb.trans hbn) hmid
        rcases lt_trichotomy' (startIP data first c) ip with hmore | heq | hless
        · obtain ⟨k, exit, hlands, hrest⟩ :=
            ih hmid hj hcb hbn hmore habove (fun _ => rfl) (by omega)
          exact ⟨k, exit, hlands, searchLoop_above hij hread hmore hrest⟩
        · exact ⟨c, _, .equal _ hmid (hcb.trans hbn) heq, searchLoop_equal hij hread heq⟩
        · by_cases hend : getMiddleOffset i j = j
          · have hcb' : c = b := by
              rw [hend, hj, entry, entry] at hmid
              omega
            have hback : j - 7 = i := by
              have hseven : (7 : UInt32).toNat = 7 := rfl
              have hle : (7 : UInt32) ≤ j := by
                rw [UInt32.le_iff_toNat_le, hj, hseven, entry]
                omega
              apply UInt32.toNat_inj.mp
              rw [UInt32.toNat_sub_of_le _ _ hle, hi, hj, hseven, entry, entry]
              omega
            have habove' : ∀ d, a < d → d ≤ n → ip < startIP data first d := by
              intro d had hdn
              by_cases hd : d = c
              · rw [hd]
                exact hless
              · exact habove d (by omega) hdn
            obtain ⟨k, exit, hlands, hrest⟩ := ih hi (hback ▸ hi) (Nat.le_refl a) (by omega) hbelow
              habove' (fun _ => hback) (by omega)
            exact ⟨k, exit, hlands, searchLoop_below_last hij hread hless hend hrest⟩
          · have hcb' : c ≠ b := by
              rintro rfl
              exact hend (UInt32.toNat_inj.mp (hmid.trans hj.symm))
            have habove' : ∀ d, c < d → d ≤ n → ip < startIP data first d := by
              intro d hcd hdn
              exact UInt32.lt_trans hless (hindex.sorted c d hcd hdn)
            obtain ⟨k, exit, hlands, hrest⟩ := ih hi hmid hac.le (hcb.trans hbn) hbelow habove'
              (fun h => absurd h (by omega)) (by omega)
            exact ⟨k, exit, hlands, searchLoop_below hij hread hless hend hrest⟩

theorem readOffset_does (hc : c ≤ n) (hoffset : mOffset.toNat = entry first c) :
    Does (Stands data first last none) (readOffset mOffset) (recordOf data first c)
      (Stands data first last (some (entry first c + 4 + 3))) := by
  have hle := hindex.entry_le hc
  have hsmall := hindex.small
  have hfour : (mOffset + 4).toNat = entry first c + 4 := by
    have hfour' : (4 : UInt32).toNat = 4 := rfl
    rw [UInt32.toNat_add, hfour', hoffset]
    omega
  refine (openFile_does.pre fun s hs => ⟨none, hs⟩).bind ((seekg_does _).bind ?_)
  rw [hfour]
  exact read3_does (by omega)

theorem readRecordOffset_does {exit : Exit} (hlands : Lands data first n ip c exit) :
    Does (Stands data first last none) (readRecordOffset ip exit)
      (if startIP data first c = ip ∨ ip ≤ endIP data first c then recordOf data first c else 0)
      (Stands data first last none) := by
  cases hlands with
  | equal mOffset hoffset hle heq =>
      rw [if_pos (.inl heq)]
      exact (hindex.readOffset_does hle hoffset).bind (closeFile_does.bind (Does.pure _))
  | done mOffset hoffset hle hlt habove =>
      refine (hindex.readOffset_does hle hoffset).bind ?_
      have hread : Does (Stands data first last (some (entry first c + 4 + 3)))
          (readIP (recordOf data first c)) (endIP data first c) (Stands data first last none) :=
        (readIP_does rfl (hindex.records c hle)).pre fun s hs => ⟨_, hs⟩
      refine hread.bind ?_
      have hne : startIP data first c ≠ ip := fun h => UInt32.lt_irrefl ip (h ▸ hlt)
      by_cases hin : ip ≤ endIP data first c
      · rw [if_pos ((compareIP_nonpos_iff _ _).mpr hin), if_pos (.inr hin)]
        exact Does.pure _
      · rw [if_neg fun h => hin ((compareIP_nonpos_iff _ _).mp h),
          if_neg fun h => h.elim hne hin]
        exact Does.pure _

theorem floor_of_lands {exit : Exit} (hlands : Lands data first n ip c exit) :
    Floor data first n ip c := by
  cases hlands with
  | equal mOffset hoffset hle heq =>
      refine ⟨hle, UInt32.le_of_eq heq, fun d hcd hdn => ?_⟩
      rw [← heq]
      exact hindex.sorted c d hcd hdn
  | done mOffset hoffset hle hlt habove => exact ⟨hle, UInt32.le_of_lt hlt, habove⟩

omit hindex in
theorem floor_unique {c' : Nat} (h : Floor data first n ip c) (h' : Floor data first n ip c') :
    c = c' := by
  obtain ⟨hle, hstart, habove⟩ := h
  obtain ⟨hle', hstart', habove'⟩ := h'
  rcases Nat.lt_trichotomy c c' with hlt | heq | hlt
  · exact absurd hstart' (UInt32.not_le.mpr (habove c' hlt hle'))
  · exact heq
  · exact absurd hstart (UInt32.not_le.mpr (habove' c hlt hle))

/-- The two reads that `searchIP` starts with. -/
theorem searchIP_does_of_rest {fuel : Nat} {offset : UInt32}
    (hrest : Does (Stands data first last none)
      (if compareIP ip (startIP data first 0) = 0 then return first
        else if compareIP ip (startIP data first 0) < 0 then return 0
        else searchLoop ip fuel first last u.mOffset >>= readRecordOffset ip) offset
      (Stands data first last none)) (place : Option Nat) :
    Does (Stands data first last place) (searchIP u fuel ip) offset
      (Stands data first last none) := by
  have hle := hindex.entry_le (Nat.zero_le n)
  have hfirst : Does (Stands data first last place) (readIP first) (startIP data first 0)
      (Stands data first last none) :=
    (readIP_does rfl (by rw [entry] at hle; omega)).pre fun s hs => ⟨place, hs⟩
  refine Does.get_bind fun s hs => ?_
  rw [hs.firstIndexOffset, hs.lastIndexOffset]
  exact hfirst.bind ((hindex.readStart_does (Nat.le_refl n) hindex.last_eq).bind hrest)

/-- What `searchIP` gives for an address: the record of the entry it belongs to, but for the first
address of the first entry the offset of that entry itself. -/
theorem searchIP_does (hn : 0 < n) {fuel : Nat} (hfuel : n < fuel)
    (hfloor : Floor data first n ip c) (place : Option Nat) :
    Does (Stands data first last place) (searchIP u fuel ip)
      (if startIP data first 0 = ip then first
        else if startIP data first c = ip ∨ ip ≤ endIP data first c then recordOf data first c
        else 0)
      (Stands data first last none) := by
  refine hindex.searchIP_does_of_rest ?_ place
  have hzero : startIP data first 0 ≤ ip := by
    refine UInt32.le_trans ?_ hfloor.2.1
    rcases Nat.eq_zero_or_pos c with rfl | hpos
    · exact UInt32.le_refl _
    · exact UInt32.le_of_lt (hindex.sorted 0 c hpos hfloor.1)
  by_cases heq : startIP data first 0 = ip
  · rw [if_pos ((compareIP_eq_zero_iff _ _).mpr heq.symm), if_pos heq]
    exact Does.pure _
  · have hlt : startIP data first 0 < ip := UInt32.lt_iff_le_and_ne.mpr ⟨hzero, heq⟩
    rw [if_neg fun h => heq ((compareIP_eq_zero_iff _ _).mp h).symm, if_neg heq,
      if_neg fun h => UInt32.lt_asymm hlt ((compareIP_neg_iff _ _).mp h)]
    have hsame : 0 = n → u.mOffset = first := by omega
    have hstart : first.toNat = entry first 0 := (Nat.add_zero _).symm
    obtain ⟨k, exit, hlands, hloop⟩ := hindex.searchLoop_does fuel hstart hindex.last_eq
      (Nat.zero_le n) (Nat.le_refl n) hlt (fun d hd hdn => absurd hdn (by omega)) hsame (by omega)
    obtain rfl := floor_unique hfloor (hindex.floor_of_lands hlands)
    exact hloop.bind (hindex.readRecordOffset_does hlands)

end Index

/-! ### The loop over any file -/

theorem readIP_ends (offset : UInt32) : Ends (readIP offset) := by
  refine (Ends.modify _).bind fun _ => (Ends.modify _).bind fun _ => ?_
  exact (Ends.modifyGet _).bind fun _ => (Ends.modify _).bind fun _ => Ends.pure _

theorem searchLoop_ends_of_le (hle : j ≤ i) (fuel : Nat) (mOffset : UInt32) :
    Ends (searchLoop ip (fuel + 1) i j mOffset) := by
  rw [searchLoop, if_neg (UInt32.not_lt.mpr hle)]
  exact Ends.pure _

/-- A turn of the loop ends when what may follow it does. -/
theorem searchLoop_ends_succ {fuel : Nat}
    (habove : ∀ m, Ends (searchLoop ip fuel (getMiddleOffset i j) j m))
    (hbelow : getMiddleOffset i j ≠ j → ∀ m, Ends (searchLoop ip fuel i (getMiddleOffset i j) m))
    (hlast : getMiddleOffset i j = j → ∀ m, Ends (searchLoop ip fuel i (j - 7) m))
    (mOffset : UInt32) : Ends (searchLoop ip (fuel + 1) i j mOffset) := by
  -- the four ends of a turn: above, below at the last entry, below, and the address itself
  rw [searchLoop]
  split
  · refine (readIP_ends _).bind fun midIP => ?_
    dsimp only
    split
    · exact habove _
    · split
      · split
        · rename_i h
          exact hlast h _
        · rename_i h
          exact hbelow h _
      · exact Ends.pure _
  · exact Ends.pure _

theorem searchLoop_ends_of_seven {fuel : Nat} (hj : j.toNat = i.toNat + 7) (mOffset : UInt32) :
    Ends (searchLoop ip (fuel + 2) i j mOffset) := by
  have hlt : j.toNat < 2 ^ 32 := j.toNat_lt
  have hmid : getMiddleOffset i j = j := by
    apply UInt32.toNat_inj.mp
    rw [toNat_getMiddleOffset (by omega) (by omega)]
    omega
  have hback : j - 7 = i := by
    have hseven : (7 : UInt32).toNat = 7 := rfl
    have hle : (7 : UInt32) ≤ j := by
      rw [UInt32.le_iff_toNat_le, hseven]
      omega
    apply UInt32.toNat_inj.mp
    rw [UInt32.toNat_sub_of_le _ _ hle, hseven]
    omega
  refine searchLoop_ends_succ (fun m => ?_) (fun h => absurd hmid h) (fun _ m => ?_) mOffset
  · rw [hmid]
    exact searchLoop_ends_of_le (UInt32.le_refl j) fuel m
  · rw [hback]
    exact searchLoop_ends_of_le (UInt32.le_refl i) fuel m

/-- Whatever the file holds, the loop ends unless an offset runs over. -/
theorem searchLoop_ends (fuel : Nat) : ∀ {i j : UInt32}, i.toNat ≤ j.toNat →
    j.toNat + 7 < 2 ^ 32 → j.toNat - i.toNat + 3 ≤ fuel → ∀ mOffset,
    Ends (searchLoop ip fuel i j mOffset) := by
  induction fuel with
  | zero =>
      intro i j _ _ hfuel
      exact absurd hfuel (by omega)
  | succ fuel ih =>
      intro i j hle hlt hfuel mOffset
      have hmid := toNat_getMiddleOffset hle (by omega)
      obtain ⟨k, rfl⟩ : ∃ k, fuel = k + 2 := ⟨fuel - 2, by omega⟩
      rcases Nat.lt_or_ge 7 (j.toNat - i.toNat) with hlong | hshort
      · refine searchLoop_ends_succ (fun m => ?_) (fun _ m => ?_) (fun hend m => ?_) mOffset
        · exact ih (by omega) hlt (by omega) m
        · exact ih (by omega) (by omega) (by omega) m
        · exact absurd (hend ▸ hmid) (by omega)
      · rcases Nat.eq_or_lt_of_le hshort with hseven | hshort
        · exact searchLoop_ends_of_seven (by omega) mOffset
        · rcases Nat.eq_zero_or_pos (j.toNat - i.toNat) with hzero | hpos
          · exact searchLoop_ends_of_le (UInt32.le_iff_toNat_le.mpr (by omega)) _ mOffset
          · refine searchLoop_ends_succ (fun m => ?_) (fun _ m => ?_) (fun hend m => ?_) mOffset
            · exact searchLoop_ends_of_le (UInt32.le_iff_toNat_le.mpr (by omega)) _ m
            · exact searchLoop_ends_of_seven (by omega) m
            · exact absurd (hend ▸ hmid) (by omega)

end CodeSlices.Qqwry
