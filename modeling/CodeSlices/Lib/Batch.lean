import CodeSlices.Lib.Table

/-!
# Deletion in batches

A loop that fetches some rows that meet a condition and deletes them, until it gets none. Whatever
rows a fetch picks, the loop ends, and all the others are left.
-/

namespace CodeSlices.Table

variable {α : Type*}

def deleteAll (rows : List (Nat × α)) (t : Table α) : Table α :=
  rows.foldl (fun t row => t.delete row.1) t

def keep (p : α → Bool) (t : Table α) : Table α where
  rows := t.rows.filter fun row => p row.2
  nodup := t.nodup.sublist (List.filter_sublist.map Prod.fst)

/-- The loop, with the number of fetches that it may do. -/
def deleteLoop (fetch : Table α → List (Nat × α)) : Nat → Table α → Option (Table α)
  | 0, _ => none
  | fuel + 1, t =>
      let ret := fetch t
      if 0 < ret.length then deleteLoop fetch fuel (t.deleteAll ret) else some t

/-- Of the rows that meet the condition there are `n` in the batch, or all. -/
def IsBatch (p : α → Bool) (n : Nat) (t : Table α) (ret : List (Nat × α)) : Prop :=
  ∃ rest, (t.keep p).rows.Perm (ret ++ rest) ∧ (ret.length = n ∨ rest = [])

variable {p : α → Bool} {n fuel : Nat} {t : Table α} {ret rest : List (Nat × α)}
  {fetch : Table α → List (Nat × α)}

theorem rows_keep (p : α → Bool) (t : Table α) :
    (t.keep p).rows = t.rows.filter fun row => p row.2 := rfl

theorem eq_of_rows_eq {t t' : Table α} (hrows : t.rows = t'.rows) : t = t' := by
  cases t
  cases t'
  congr

theorem rows_deleteAll (rows : List (Nat × α)) (t : Table α) :
    (t.deleteAll rows).rows = t.rows.filter fun row => row.1 ∉ rows.map Prod.fst := by
  induction rows generalizing t with
  | nil => simp [deleteAll]
  | cons row rows ih =>
      rw [deleteAll, List.foldl_cons, ← deleteAll, ih, delete, List.filter_filter]
      refine List.filter_congr fun other _ => ?_
      rw [Bool.eq_iff_iff]
      simp only [Bool.and_eq_true, bne_iff_ne, decide_eq_true_eq, List.map_cons, List.mem_cons,
        not_or]
      exact and_comm

theorem mem_of_isBatch (hbatch : IsBatch p n t ret) {row : Nat × α} (hrow : row ∈ ret) :
    row ∈ t.rows ∧ p row.2 := by
  obtain ⟨rest, hperm, -⟩ := hbatch
  exact List.mem_filter.mp (hperm.mem_iff.mpr (List.mem_append_left rest hrow))

/-- The rows that do not meet the condition are not touched. -/
theorem keep_not_deleteAll (hbatch : IsBatch p n t ret) :
    ((t.deleteAll ret).keep fun a => !p a) = t.keep fun a => !p a := by
  refine eq_of_rows_eq ?_
  rw [rows_keep, rows_keep, rows_deleteAll, List.filter_filter]
  refine List.filter_congr fun row hrow => ?_
  by_cases hp : p row.2
  · simp [hp]
  · have hkept : row.1 ∉ ret.map Prod.fst := by
      intro hkey
      obtain ⟨⟨k, other⟩, hother, rfl⟩ := List.mem_map.mp hkey
      obtain ⟨hmem, hmeets⟩ := mem_of_isBatch hbatch hother
      exact hp (eq_of_mem hmem hrow ▸ hmeets)
    simp [hp, hkept]

/-- Of the rows that meet the condition those beyond the batch are left. -/
theorem length_keep_deleteAll (hperm : (t.keep p).rows.Perm (ret ++ rest)) :
    ((t.deleteAll ret).keep p).rows.length = rest.length := by
  have hnodup : ((ret ++ rest).map Prod.fst).Nodup :=
    (hperm.map Prod.fst).nodup_iff.mp (t.keep p).nodup
  rw [List.map_append, List.nodup_append] at hnodup
  obtain ⟨-, -, hdisjoint⟩ := hnodup
  have hret : ret.filter (fun row => row.1 ∉ ret.map Prod.fst) = [] :=
    List.filter_eq_nil_iff.mpr fun row hrow => by
      simpa using ⟨row.2, hrow⟩
  have hrest : rest.filter (fun row => row.1 ∉ ret.map Prod.fst) = rest :=
    List.filter_eq_self.mpr fun row hrow => decide_eq_true fun hkey =>
      hdisjoint row.1 hkey row.1 (List.mem_map_of_mem hrow) rfl
  rw [rows_keep, rows_deleteAll, List.filter_comm, ← rows_keep, (hperm.filter _).length_eq,
    List.filter_append, hret, hrest, List.nil_append]

theorem deleteLoop_of_nil (hfetch : fetch t = []) : deleteLoop fetch (fuel + 1) t = some t := by
  rw [deleteLoop, hfetch]
  rfl

theorem deleteLoop_of_ne_nil (hfetch : fetch t ≠ []) :
    deleteLoop fetch (fuel + 1) t = deleteLoop fetch fuel (t.deleteAll (fetch t)) := by
  rw [deleteLoop]
  exact if_pos (List.length_pos_iff.mpr hfetch)

theorem keep_not_of_isBatch_nil (hn : 0 < n) (hbatch : IsBatch p n t []) :
    (t.keep fun a => !p a) = t := by
  obtain ⟨rest, hperm, hlength⟩ := hbatch
  obtain rfl : rest = [] := hlength.resolve_left (Nat.ne_of_lt hn)
  have hnone := List.filter_eq_nil_iff.mp hperm.eq_nil
  refine eq_of_rows_eq (List.filter_eq_self.mpr fun row hrow => ?_)
  rw [Bool.not_eq_true', Bool.eq_false_iff]
  exact hnone row hrow

/-- The loop ends with one fetch more than there are batches to delete, and what is left is as it
was. -/
theorem deleteLoop_eq (hn : 0 < n) (hfetch : ∀ t, IsBatch p n t (fetch t))
    (hfuel : (t.keep p).rows.length ≤ n * fuel) :
    deleteLoop fetch (fuel + 1) t = some (t.keep fun a => !p a) := by
  induction fuel generalizing t with
  | zero =>
      obtain ⟨rest, hperm, -⟩ := hfetch t
      have hempty : fetch t = [] := by
        have hlength := hperm.length_eq
        rw [List.length_append] at hlength
        exact List.length_eq_zero_iff.mp (by omega)
      rw [deleteLoop_of_nil hempty, keep_not_of_isBatch_nil hn (hempty ▸ hfetch t)]
  | succ fuel ih =>
      by_cases hempty : fetch t = []
      · rw [deleteLoop_of_nil hempty, keep_not_of_isBatch_nil hn (hempty ▸ hfetch t)]
      · obtain ⟨rest, hperm, hrest⟩ := hfetch t
        have hleft : rest.length ≤ n * fuel := by
          rcases hrest with hfull | rfl
          · have hlength := hperm.length_eq
            rw [List.length_append] at hlength
            rw [Nat.mul_succ] at hfuel
            omega
          · exact Nat.zero_le _
        rw [deleteLoop_of_ne_nil hempty, ih (length_keep_deleteAll hperm ▸ hleft),
          keep_not_deleteAll (hfetch t)]

end CodeSlices.Table
