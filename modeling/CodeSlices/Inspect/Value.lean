import Mathlib.Data.List.Lex
import Mathlib.Data.List.Nodup
import Mathlib.Data.List.Perm.Subperm
import Mathlib.Data.Prod.Lex
import Mathlib.Data.Rat.Floor
import CodeSlices.Inspect.Escape

/-!
# Values and the keys of a table

The values that `lua/inspect.lua` is given, and the order and the kinds of the keys of a table.
Numbers are finite, and strings compare by their bytes.
-/

namespace CodeSlices.Inspect

/-- The types whose values have nothing in them. -/
inductive Kind
  | function
  | userdata
  | thread
  | cdata
  | ctype
  deriving DecidableEq

inductive TypeName
  | nil
  | boolean
  | number
  | string
  | table
  | kind (kind : Kind)
  deriving DecidableEq

/-- A value; tables are told apart by their addresses. -/
inductive Value (α : Type)
  | nil
  | boolean (b : Bool)
  | number (n : ℚ)
  | string (str : List UInt8)
  | table (a : α)
  | other (kind : Kind) (id : Nat)
  deriving DecidableEq

/-- The same value where each table has another address. -/
def Value.map {α β : Type} (ren : α → β) : Value α → Value β
  | .nil => .nil
  | .boolean b => .boolean b
  | .number n => .number n
  | .string str => .string str
  | .table a => .table (ren a)
  | .other kind id => .other kind id

/-- The tables and what is in them, in the order of `next`; `getmetatable` gives `metatable`. -/
structure Heap (α : Type) where
  entries : α → List (Value α × Value α)
  metatable : α → Value α
  KEY : α
  METATABLE : α
  keys_nodup : ∀ t, ((entries t).map Prod.fst).Nodup
  value_ne_nil : ∀ t, ∀ e ∈ entries t, e.2 ≠ .nil

def bytes (str : String) : List UInt8 := str.toList.map fun c => UInt8.ofNat c.toNat

namespace TypeName

def name : TypeName → List UInt8
  | .nil => bytes "nil"
  | .boolean => bytes "boolean"
  | .number => bytes "number"
  | .string => bytes "string"
  | .table => bytes "table"
  | .kind .function => bytes "function"
  | .kind .userdata => bytes "userdata"
  | .kind .thread => bytes "thread"
  | .kind .cdata => bytes "cdata"
  | .kind .ctype => bytes "ctype"

end TypeName

section Order

variable {α : Type}

def type : Value α → TypeName
  | .nil => .nil
  | .boolean _ => .boolean
  | .number _ => .number
  | .string _ => .string
  | .table _ => .table
  | .other kind _ => .kind kind

def defaultTypeOrders : TypeName → Option Nat
  | .number => some 1
  | .boolean => some 2
  | .string => some 3
  | .table => some 4
  | .kind .function => some 5
  | .kind .userdata => some 6
  | .kind .thread => some 7
  | _ => none

def sortKeys (a b : Value α) : Bool :=
  match a, b with
  | .string s, .string t => s.map UInt8.toNat < t.map UInt8.toNat
  | .number m, .number n => m < n
  | a, b =>
      match defaultTypeOrders (type a), defaultTypeOrders (type b) with
      | some i, some j => i < j
      | some _, none => true
      | none, some _ => false
      | none, none => (type a).name.map UInt8.toNat < (type b).name.map UInt8.toNat

/-- `table.sort(keys, sortKeys)`, of which no more is known than that it sorts. -/
structure TableSort (α : Type) where
  sort : List (Value α) → List (Value α)
  perm : ∀ keys, (sort keys).Perm keys
  sorted : ∀ keys, (sort keys).Pairwise fun a b => sortKeys b a = false

/-- The types in their order. -/
def rank : TypeName → Nat
  | .number => 1
  | .boolean => 2
  | .string => 3
  | .table => 4
  | .kind .function => 5
  | .kind .userdata => 6
  | .kind .thread => 7
  | .kind .cdata => 8
  | .kind .ctype => 9
  | .nil => 10

/-- A place for each key: its type, and for numbers and strings the value. -/
def place : Value α → ℕ ×ₗ (List ℕ ×ₗ ℚ)
  | .number n => toLex (1, toLex ([], n))
  | .string s => toLex (3, toLex (s.map UInt8.toNat, 0))
  | k => toLex (rank (type k), toLex ([], 0))

theorem lt_iff (i j : ℕ) (s t : List ℕ) (m n : ℚ) :
    toLex (i, toLex (s, m)) < toLex (j, toLex (t, n)) ↔
      i < j ∨ i = j ∧ (s < t ∨ s = t ∧ m < n) := by
  rw [Prod.Lex.toLex_lt_toLex, Prod.Lex.toLex_lt_toLex]

/-- `sortKeys` compares the places of the keys. -/
theorem sortKeys_iff (a b : Value α) : sortKeys a b = true ↔ place a < place b := by
  rcases a with _ | _ | _ | _ | _ | ⟨_ | _ | _ | _ | _, _⟩ <;>
    rcases b with _ | _ | _ | _ | _ | ⟨_ | _ | _ | _ | _, _⟩ <;>
    simp [sortKeys, defaultTypeOrders, type, TypeName.name, bytes, place, rank, lt_iff] <;> decide

variable {keys keys' : List (Value α)}

theorem not_sortKeys_iff (a b : Value α) : sortKeys b a = false ↔ place a ≤ place b := by
  rw [← not_lt, ← sortKeys_iff, Bool.not_eq_true]

/-- A sort by merging. -/
def TableSort.merge (α : Type) : TableSort α where
  sort := fun keys => keys.mergeSort fun a b => !sortKeys b a
  perm := fun keys => List.mergeSort_perm keys _
  sorted := by
    intro keys
    refine (List.pairwise_mergeSort ?_ ?_ keys).imp fun h => Bool.not_eq_true' _ ▸ h
    · intro a b c hab hbc
      rw [Bool.not_eq_true', not_sortKeys_iff] at *
      exact hab.trans hbc
    · intro a b
      rw [Bool.or_eq_true, Bool.not_eq_true', Bool.not_eq_true', not_sortKeys_iff,
        not_sortKeys_iff]
      exact le_total _ _

/-- What sorts keys that have places of their own does not matter, nor in which order they come. -/
theorem TableSort.sort_eq (sorter sorter' : TableSort α) (hperm : keys.Perm keys')
    (hplace : ∀ a ∈ keys, ∀ b ∈ keys, place a = place b → a = b) :
    sorter.sort keys = sorter'.sort keys' := by
  have hsort : (sorter.sort keys).Perm (sorter'.sort keys') :=
    (sorter.perm keys).trans (hperm.trans (sorter'.perm keys').symm)
  refine hsort.eq_of_pairwise ?_ (sorter.sorted keys) (sorter'.sorted keys')
  intro a b ha hb hba hab
  have hle : place a ≤ place b := (not_sortKeys_iff a b).mp hba
  have hge : place b ≤ place a := (not_sortKeys_iff b a).mp hab
  have ha' : a ∈ keys := (sorter.perm keys).mem_iff.mp ha
  have hb' : b ∈ keys := (sorter.perm keys).mem_iff.mp (hsort.mem_iff.mpr hb)
  exact hplace a ha' b hb' (le_antisymm hle hge)

end Order

/-! ### Sequences -/

variable {α : Type} [DecidableEq α]

def rawget (heap : Heap α) (t : α) (k : Value α) : Value α :=
  ((heap.entries t).lookup k).getD .nil

/-- The loop of `getSequenceLength`, for the passes that are left. -/
def sequenceLoop (heap : Heap α) (t : α) : Nat → Nat → Nat
  | 0, len => len
  | fuel + 1, len =>
      if rawget heap t (.number len) ≠ .nil then sequenceLoop heap t fuel (len + 1) else len

/-- A sequence is not longer than the table has entries. -/
def getSequenceLength (heap : Heap α) (t : α) : Nat :=
  sequenceLoop heap t ((heap.entries t).length + 1) 1 - 1

def isSequenceKey (k : Value α) (sequenceLength : Nat) : Bool :=
  match k with
  | .number n => 1 ≤ n ∧ n ≤ sequenceLength ∧ (n.floor : ℚ) = n
  | _ => false

def getNonSequentialKeys (heap : Heap α) (sorter : TableSort α) (t : α) : List (Value α) :=
  sorter.sort (((heap.entries t).map Prod.fst).filter fun k =>
    !isSequenceKey k (getSequenceLength heap t))

variable {heap : Heap α} {t : α} {k v : Value α}

def keys (heap : Heap α) (t : α) : List (Value α) := (heap.entries t).map Prod.fst

theorem rawget_of_mem (he : (k, v) ∈ heap.entries t) : rawget heap t k = v := by
  obtain ⟨front, back, heq⟩ := List.append_of_mem he
  have hnodup := heap.keys_nodup t
  rw [heq, List.map_append, List.nodup_append] at hnodup
  have hfront : ∀ e ∈ front, (k != e.1) = true := by
    intro e he
    have hne := hnodup.2.2 e.1 (List.mem_map_of_mem he) k (List.mem_cons_self ..)
    exact bne_iff_ne.mpr (Ne.symm hne)
  rw [rawget, List.lookup_eq_some_iff.mpr ⟨front, back, heq, hfront⟩]
  rfl

theorem rawget_ne_nil_iff : rawget heap t k ≠ .nil ↔ k ∈ keys heap t := by
  constructor
  · intro h
    by_contra hk
    refine h ?_
    have hnone : (heap.entries t).lookup k = none := by
      refine List.lookup_eq_none_iff.mpr fun e he => bne_iff_ne.mpr ?_
      rintro rfl
      exact hk (List.mem_map_of_mem he)
    rw [rawget, hnone]
    rfl
  · intro hk
    obtain ⟨⟨k, v⟩, he, rfl⟩ := List.mem_map.mp hk
    rw [rawget_of_mem he]
    exact heap.value_ne_nil t (k, v) he

theorem entries_eq (heap : Heap α) (t : α) :
    heap.entries t = (keys heap t).map fun k => (k, rawget heap t k) := by
  rw [keys, List.map_map]
  conv_lhs => rw [← List.map_id (heap.entries t)]
  refine List.map_congr_left ?_
  rintro ⟨k, v⟩ he
  exact Prod.ext rfl (rawget_of_mem he).symm

theorem sequenceLoop_spec (heap : Heap α) (t : α) (fuel len : Nat) :
    len ≤ sequenceLoop heap t fuel len ∧
      (∀ i, len ≤ i → i < sequenceLoop heap t fuel len → rawget heap t (.number i) ≠ .nil) ∧
      (sequenceLoop heap t fuel len < len + fuel →
        rawget heap t (.number (sequenceLoop heap t fuel len)) = .nil) := by
  induction fuel generalizing len with
  | zero => exact ⟨le_rfl, fun i hi hlt => absurd hi (not_le.mpr hlt),
      fun h => absurd h (lt_irrefl len)⟩
  | succ fuel ih =>
      rw [sequenceLoop]
      split
      · rename_i hget
        obtain ⟨hle, hall, hend⟩ := ih (len + 1)
        refine ⟨(Nat.le_succ len).trans hle, ?_, fun h => hend (by omega)⟩
        intro i hi hlt
        rcases Nat.eq_or_lt_of_le hi with rfl | hi
        · exact hget
        · exact hall i hi hlt
      · rename_i hget
        exact ⟨le_rfl, fun i hi hlt => absurd hi (not_le.mpr hlt), fun _ => not_not.mp hget⟩

/-- The keys of a sequence of a given length. -/
def sequenceKeys (α : Type) (len : Nat) : List (Value α) :=
  (List.range len).map fun i => .number ((i + 1 : Nat) : ℚ)

omit [DecidableEq α] in
theorem mem_sequenceKeys {len : Nat} :
    k ∈ sequenceKeys α len ↔ ∃ i, 1 ≤ i ∧ i ≤ len ∧ k = .number (i : ℚ) := by
  rw [sequenceKeys, List.mem_map]
  constructor
  · rintro ⟨i, hi, rfl⟩
    exact ⟨i + 1, Nat.succ_pos i, List.mem_range.mp hi, rfl⟩
  · rintro ⟨i, hpos, hle, rfl⟩
    refine ⟨i - 1, List.mem_range.mpr (by omega), ?_⟩
    rw [Nat.sub_add_cancel hpos]

omit [DecidableEq α] in
theorem nodup_sequenceKeys (len : Nat) : (sequenceKeys α len).Nodup := by
  refine List.Nodup.map ?_ List.nodup_range
  intro i j hij
  have hnat : ((i + 1 : Nat) : ℚ) = ((j + 1 : Nat) : ℚ) := Value.number.inj hij
  exact Nat.succ.inj (Nat.cast_injective hnat)

/-- The loop ends before its fuel does. -/
theorem getSequenceLength_spec (heap : Heap α) (t : α) :
    (∀ i, 1 ≤ i → i ≤ getSequenceLength heap t → rawget heap t (.number i) ≠ .nil) ∧
      rawget heap t (.number (getSequenceLength heap t + 1 : Nat)) = .nil := by
  obtain ⟨hle, hall, hend⟩ := sequenceLoop_spec heap t ((heap.entries t).length + 1) 1
  have hlen : getSequenceLength heap t + 1 =
      sequenceLoop heap t ((heap.entries t).length + 1) 1 := Nat.sub_add_cancel hle
  rw [← hlen] at hall hend
  have hsubset : sequenceKeys α (getSequenceLength heap t) ⊆ keys heap t := by
    intro k hk
    obtain ⟨i, hpos, hi, rfl⟩ := mem_sequenceKeys.mp hk
    exact rawget_ne_nil_iff.mp (hall i hpos (Nat.lt_succ_of_le hi))
  have hcount := (List.Nodup.subperm (nodup_sequenceKeys _) hsubset).length_le
  rw [sequenceKeys, keys, List.length_map, List.length_map, List.length_range] at hcount
  exact ⟨fun i hpos hi => hall i hpos (Nat.lt_succ_of_le hi), hend (by omega)⟩

omit [DecidableEq α] in
theorem isSequenceKey_iff (k : Value α) (len : Nat) :
    isSequenceKey k len = true ↔ k ∈ sequenceKeys α len := by
  rw [mem_sequenceKeys]
  constructor
  · intro h
    cases k with
    | number n =>
        obtain ⟨hpos, hle, hfloor⟩ := of_decide_eq_true h
        have hnonneg : 0 ≤ n.floor := Int.floor_nonneg.mpr (zero_le_one.trans hpos)
        obtain ⟨i, hi⟩ := Int.eq_ofNat_of_zero_le hnonneg
        have hn : (i : ℚ) = n := by
          rw [← hfloor, hi]
          rfl
        refine ⟨i, ?_, ?_, by rw [hn]⟩
        · exact_mod_cast hn ▸ hpos
        · exact_mod_cast hn ▸ hle
    | nil | boolean | string | table | other => exact absurd h Bool.false_ne_true
  · rintro ⟨i, hpos, hle, rfl⟩
    refine decide_eq_true ⟨?_, ?_, ?_⟩
    · exact_mod_cast hpos
    · exact_mod_cast hle
    · exact congrArg Int.cast (Rat.floor_intCast i)

/-- The keys of a table are those of its sequence and the others. -/
theorem keys_perm (heap : Heap α) (sorter : TableSort α) (t : α) :
    (keys heap t).Perm
      (sequenceKeys α (getSequenceLength heap t) ++ getNonSequentialKeys heap sorter t) := by
  have hsplit := (List.filter_append_perm
    (fun k => isSequenceKey k (getSequenceLength heap t)) (keys heap t)).symm
  refine hsplit.trans (List.Perm.append ?_ (sorter.perm _).symm)
  refine (List.perm_ext_iff_of_nodup ((heap.keys_nodup t).filter _) (nodup_sequenceKeys _)).mpr ?_
  intro k
  rw [List.mem_filter, isSequenceKey_iff]
  refine and_iff_right_of_imp fun hk => ?_
  obtain ⟨i, hpos, hle, rfl⟩ := mem_sequenceKeys.mp hk
  exact rawget_ne_nil_iff.mp ((getSequenceLength_spec heap t).1 i hpos hle)

/-! ### The tables a table refers to -/

def tables : Value α → List α
  | .table a => [a]
  | _ => []

/-- The tables among the keys and the values of a table, and its metatable. -/
def refs (heap : Heap α) (t : α) : List α :=
  (heap.entries t).flatMap (fun e => tables e.1 ++ tables e.2) ++ tables (heap.metatable t)

end CodeSlices.Inspect
