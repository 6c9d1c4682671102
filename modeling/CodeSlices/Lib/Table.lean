import Mathlib.Data.List.Nodup

/-!
# A table of entities with keys

Rows in the order in which the store returns them, no two with the same key. `select` is a query for
the first row that meets a condition and `put` writes the row with a given key.
-/

namespace CodeSlices.Table

variable {α : Type*}

/-- Write the row with key `k`, in its place if there is one. -/
def putRows (k : Nat) (a : α) : List (Nat × α) → List (Nat × α)
  | [] => [(k, a)]
  | row :: rows => if row.1 = k then (k, a) :: rows else row :: putRows k a rows

theorem putRows_append {k : Nat} {rows : List (Nat × α)} (hk : k ∉ rows.map Prod.fst) (a : α)
    (rest : List (Nat × α)) : putRows k a (rows ++ rest) = rows ++ putRows k a rest := by
  induction rows with
  | nil => rfl
  | cons row rows ih =>
      rw [List.map_cons, List.mem_cons, not_or] at hk
      rw [List.cons_append, putRows, if_neg (Ne.symm hk.1), ih hk.2, List.cons_append]

theorem putRows_of_notMem {k : Nat} {rows : List (Nat × α)} (hk : k ∉ rows.map Prod.fst) (a : α) :
    putRows k a rows = rows ++ [(k, a)] := by
  have happend := putRows_append hk a []
  rwa [List.append_nil] at happend

theorem map_fst_putRows_of_mem {k : Nat} {rows : List (Nat × α)} (hk : k ∈ rows.map Prod.fst)
    (a : α) : (putRows k a rows).map Prod.fst = rows.map Prod.fst := by
  induction rows with
  | nil => exact absurd hk List.not_mem_nil
  | cons row rows ih =>
      rw [putRows]
      split
      · rename_i heq
        rw [List.map_cons, List.map_cons, heq]
      · rename_i hne
        rw [List.map_cons, List.mem_cons] at hk
        rw [List.map_cons, List.map_cons, ih (hk.resolve_left (Ne.symm hne))]

theorem mem_putRows {k : Nat} {rows : List (Nat × α)} (hnodup : (rows.map Prod.fst).Nodup) (a : α)
    {row : Nat × α} : row ∈ putRows k a rows ↔ row = (k, a) ∨ row ∈ rows ∧ row.1 ≠ k := by
  induction rows with
  | nil => simp [putRows]
  | cons head rows ih =>
      obtain ⟨hhead, hrows⟩ := List.nodup_cons.mp hnodup
      rw [putRows]
      split
      · rename_i heq
        rw [List.mem_cons, List.mem_cons]
        refine or_congr_right ⟨fun hrow => ⟨Or.inr hrow, fun hk => hhead ?_⟩, ?_⟩
        · rw [heq, ← hk]
          exact List.mem_map_of_mem hrow
        · rintro ⟨rfl | hrow, hk⟩
          · exact absurd heq hk
          · exact hrow
      · rename_i hne
        rw [List.mem_cons, ih hrows, List.mem_cons]
        constructor
        · rintro (rfl | rfl | ⟨hrow, hk⟩)
          · exact Or.inr ⟨Or.inl rfl, hne⟩
          · exact Or.inl rfl
          · exact Or.inr ⟨Or.inr hrow, hk⟩
        · rintro (rfl | ⟨rfl | hrow, hk⟩)
          · exact Or.inr (Or.inl rfl)
          · exact Or.inl rfl
          · exact Or.inr (Or.inr ⟨hrow, hk⟩)

theorem find?_putRows {k : Nat} {a b : α} {q : Nat × α → Bool} {rows : List (Nat × α)}
    (hfind : rows.find? q = some (k, b)) (ha : q (k, a)) :
    (putRows k a rows).find? q = some (k, a) := by
  induction rows with
  | nil => cases hfind
  | cons row rows ih =>
      rw [putRows]
      split
      · exact List.find?_cons_of_pos ha
      · rename_i hne
        by_cases hrow : q row
        · rw [List.find?_cons_of_pos hrow] at hfind
          exact absurd (congrArg Prod.fst (Option.some.inj hfind)) hne
        · rw [List.find?_cons_of_neg hrow] at hfind ⊢
          exact ih hfind

theorem find?_putRows_of_not {k : Nat} {a : α} {q : Nat × α → Bool} {rows : List (Nat × α)}
    (ha : ¬ q (k, a)) (hrows : ∀ row ∈ rows, row.1 = k → ¬ q row) :
    (putRows k a rows).find? q = rows.find? q := by
  induction rows with
  | nil => exact List.find?_cons_of_neg ha
  | cons row rows ih =>
      have hrest := ih fun other hother => hrows other (List.mem_cons_of_mem row hother)
      rw [putRows]
      split
      · rename_i hk
        rw [List.find?_cons_of_neg ha, List.find?_cons_of_neg (hrows row List.mem_cons_self hk)]
      · by_cases hrow : q row
        · rw [List.find?_cons_of_pos hrow, List.find?_cons_of_pos hrow]
        · rw [List.find?_cons_of_neg hrow, List.find?_cons_of_neg hrow, hrest]

end CodeSlices.Table

namespace CodeSlices

structure Table (α : Type*) where
  rows : List (Nat × α)
  nodup : (rows.map Prod.fst).Nodup

namespace Table

variable {α : Type*} (t : Table α) {k : Nat} {a b : α} {p : α → Bool}

def empty : Table α := ⟨[], List.nodup_nil⟩

def keys : List Nat := t.rows.map Prod.fst

def select (p : α → Bool) : Option (Nat × α) := t.rows.find? fun row => p row.2

def get (k : Nat) : Option α := t.rows.lookup k

def put (k : Nat) (a : α) : Table α where
  rows := putRows k a t.rows
  nodup := by
    by_cases hk : k ∈ t.rows.map Prod.fst
    · rw [map_fst_putRows_of_mem hk]
      exact t.nodup
    · rw [putRows_of_notMem hk, List.map_append, List.map_singleton, ← List.concat_eq_append]
      exact t.nodup.concat hk

def delete (k : Nat) : Table α where
  rows := t.rows.filter fun row => row.1 != k
  nodup := t.nodup.sublist (List.filter_sublist.map Prod.fst)

def newKey : Nat := t.keys.foldr max 0 + 1

variable {t}

theorem mem_put {row : Nat × α} :
    row ∈ (t.put k a).rows ↔ row = (k, a) ∨ row ∈ t.rows ∧ row.1 ≠ k :=
  mem_putRows t.nodup a

theorem mem_keys_put {j : Nat} : j ∈ (t.put k a).keys ↔ j = k ∨ j ∈ t.keys := by
  constructor
  · intro hj
    obtain ⟨row, hrow, rfl⟩ := List.mem_map.mp hj
    rcases mem_put.mp hrow with rfl | ⟨hmem, -⟩
    · exact Or.inl rfl
    · exact Or.inr (List.mem_map_of_mem hmem)
  · intro hj
    by_cases hjk : j = k
    · subst hjk
      exact List.mem_map_of_mem (mem_put.mpr (Or.inl rfl))
    · obtain ⟨row, hrow, rfl⟩ := List.mem_map.mp (hj.resolve_left hjk)
      exact List.mem_map_of_mem (mem_put.mpr (Or.inr ⟨hrow, hjk⟩))

theorem rows_put_of_notMem (hk : k ∉ t.keys) : (t.put k a).rows = t.rows ++ [(k, a)] :=
  putRows_of_notMem hk a

theorem rows_put_of_eq {before after : List (Nat × α)}
    (hrows : t.rows = before ++ (k, b) :: after) :
    (t.put k a).rows = before ++ (k, a) :: after := by
  have hbefore : k ∉ before.map Prod.fst := by
    have hnodup := t.nodup
    rw [hrows, List.map_append] at hnodup
    exact fun hk => List.disjoint_of_nodup_append hnodup hk List.mem_cons_self
  have hput : (t.put k a).rows = putRows k a t.rows := rfl
  rw [hput, hrows, putRows_append hbefore, putRows, if_pos rfl]

theorem mem_delete {row : Nat × α} :
    row ∈ (t.delete k).rows ↔ row ∈ t.rows ∧ row.1 ≠ k := by
  rw [delete, List.mem_filter, bne_iff_ne]

theorem newKey_notMem : t.newKey ∉ t.keys := by
  have hle : ∀ keys : List Nat, ∀ k ∈ keys, k ≤ keys.foldr max 0 := by
    intro keys
    induction keys with
    | nil => exact fun k hk => absurd hk List.not_mem_nil
    | cons key keys ih =>
        intro k hk
        rw [List.foldr_cons]
        rcases List.mem_cons.mp hk with rfl | hk
        · exact Nat.le_max_left k _
        · exact Nat.le_trans (ih k hk) (Nat.le_max_right key _)
  exact fun hmem => absurd (hle t.keys _ hmem) (by rw [newKey]; omega)

theorem ne_newKey {row : Nat × α} (hrow : row ∈ t.rows) : row.1 ≠ t.newKey := by
  have hkey : row.1 ∈ t.keys := List.mem_map_of_mem hrow
  exact fun hk => newKey_notMem (hk ▸ hkey)

theorem eq_of_mem (hrow : (k, a) ∈ t.rows) (hrow' : (k, b) ∈ t.rows) : a = b := by
  have heq := List.inj_on_of_nodup_map t.nodup hrow hrow' rfl
  exact (Prod.mk.inj heq).2

theorem get_of_mem (hrow : (k, a) ∈ t.rows) : t.get k = some a := by
  rcases hget : t.get k with - | b
  · exact absurd rfl (bne_iff_ne.mp (List.lookup_eq_none_iff.mp hget (k, a) hrow))
  · obtain ⟨before, after, hrows, -⟩ := List.lookup_eq_some_iff.mp hget
    have hb : (k, b) ∈ t.rows := by
      rw [hrows]
      exact List.mem_append_right before List.mem_cons_self
    rw [eq_of_mem hrow hb]

theorem mem_of_select (hselect : t.select p = some (k, a)) : (k, a) ∈ t.rows ∧ p a := by
  have hfind : t.rows.find? (fun row => p row.2) = some (k, a) := hselect
  have hp := List.find?_some hfind
  exact ⟨List.mem_of_find?_eq_some hfind, hp⟩

theorem select_eq_none_iff : t.select p = none ↔ ∀ row ∈ t.rows, ¬ p row.2 :=
  List.find?_eq_none

theorem select_put_of_select (hselect : t.select p = some (k, b)) (ha : p a) :
    (t.put k a).select p = some (k, a) :=
  find?_putRows hselect ha

theorem select_put_of_none (hselect : t.select p = none) (hk : k ∉ t.keys) (ha : p a) :
    (t.put k a).select p = some (k, a) := by
  change (putRows k a t.rows).find? _ = _
  rw [putRows_of_notMem hk, List.find?_append]
  have hnone : t.rows.find? (fun row => p row.2) = none := hselect
  rw [hnone, Option.none_or]
  exact List.find?_cons_of_pos ha

/-- A put between rows that do not meet the condition is not seen by the query. -/
theorem select_put_of_not (ha : ¬ p a) (hrows : ∀ row ∈ t.rows, row.1 = k → ¬ p row.2) :
    (t.put k a).select p = t.select p :=
  find?_putRows_of_not ha hrows

end Table

end CodeSlices
