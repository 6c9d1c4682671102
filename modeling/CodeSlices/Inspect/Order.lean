import CodeSlices.Inspect.Once
import Mathlib.Data.Fintype.Option

/-!
# The order of `next`

What `inspect` writes does not depend on the order in which `next` gives the entries of a table, nor
on how the keys are sorted, where no two keys of a table have the same place.
-/

namespace CodeSlices.Inspect

open References

variable {α : Type} [DecidableEq α] {heap heap' : Heap α}

/-- The same tables, with their entries in another order. -/
structure Reordered (heap heap' : Heap α) : Prop where
  entries : ∀ t, (heap.entries t).Perm (heap'.entries t)
  metatable : heap.metatable = heap'.metatable
  KEY : heap.KEY = heap'.KEY
  METATABLE : heap.METATABLE = heap'.METATABLE

/-- Each key of a table has a place of its own, as numbers and strings have. -/
def Distinct (heap : Heap α) : Prop :=
  ∀ t, ∀ a ∈ keys heap t, ∀ b ∈ keys heap t, place a = place b → a = b

namespace Reordered

variable (h : Reordered heap heap')
include h

theorem rawget_eq : rawget heap = rawget heap' := by
  funext t k
  by_cases hk : k ∈ keys heap t
  · obtain ⟨⟨k, v⟩, he, rfl⟩ := List.mem_map.mp hk
    rw [rawget_of_mem he, rawget_of_mem ((h.entries t).mem_iff.mp he)]
  · have hk' : k ∉ keys heap' t := fun hmem => hk (((h.entries t).map _).mem_iff.mpr hmem)
    have hnil := not_not.mp fun hne => hk (rawget_ne_nil_iff.mp hne)
    have hnil' := not_not.mp fun hne => hk' (rawget_ne_nil_iff.mp hne)
    rw [hnil, hnil']

theorem getSequenceLength_eq (t : α) : getSequenceLength heap t = getSequenceLength heap' t := by
  have hloop : ∀ fuel len, sequenceLoop heap t fuel len = sequenceLoop heap' t fuel len := by
    intro fuel
    induction fuel with
    | zero => exact fun len => rfl
    | succ fuel ih =>
        intro len
        rw [sequenceLoop, sequenceLoop, h.rawget_eq, ih]
  rw [getSequenceLength, getSequenceLength, (h.entries t).length_eq, hloop]

theorem getNonSequentialKeys_eq (sorter sorter' : TableSort α) (hdistinct : Distinct heap) (t : α) :
    getNonSequentialKeys heap sorter t = getNonSequentialKeys heap' sorter' t := by
  rw [getNonSequentialKeys, getNonSequentialKeys, h.getSequenceLength_eq]
  refine sorter.sort_eq sorter' (((h.entries t).map _).filter _) ?_
  exact fun a ha b hb => hdistinct t a (List.mem_of_mem_filter ha) b (List.mem_of_mem_filter hb)

omit [DecidableEq α] in
theorem refs_perm (t : α) : (refs heap t).Perm (refs heap' t) := by
  rw [refs, refs, h.metatable]
  exact ((h.entries t).flatMap_right _).append_right _

omit [DecidableEq α] in
theorem reach_iff {enter : α → Prop} (root a : α) :
    Reach (refs heap) enter root a ↔ Reach (refs heap') enter root a := by
  have hstep : (fun b a => enter b ∧ a ∈ refs heap b) = fun b a => enter b ∧ a ∈ refs heap' b := by
    funext b a
    rw [(h.refs_perm b).mem_iff]
  rw [Reach, Reach, hstep]

/-- The tables are counted alike. -/
theorem appearances_eq [Fintype α] (root : Value α) (more : Nat) :
    countTableAppearances heap (Fintype.card α + 1 + more) root (fun _ => none) =
      countTableAppearances heap' (Fintype.card α + 1 + more) root (fun _ => none) := by
  cases root with
  | table root =>
      obtain ⟨counts, all, hrun, hcounted⟩ := exists_counted heap root more
      obtain ⟨counts', all', hrun', hcounted'⟩ := exists_counted heap' root more
      have hsame : all = all' := by
        ext a
        rw [hcounted.mem_iff, hcounted'.mem_iff, h.reach_iff]
      have hcounts : counts = counts' := by
        funext a
        have hmentions : mentions (refs heap) all a = mentions (refs heap') all a :=
          Finset.sum_congr rfl fun b _ => (h.refs_perm b).count_eq a
        rw [hcounted.eq, hcounted'.eq, hmentions, hsame]
      rw [hrun, hrun', hcounts]
  | nil | boolean | number | string | other =>
      rw [Nat.add_right_comm]
      rfl

theorem putValue_eq (sorter sorter' : TableSort α) (hdistinct : Distinct heap)
    (tostring : Value α → List UInt8) (options : Options) (tableAppearances : α → Option Nat)
    (fuel : Nat) :
    putValue ⟨heap, sorter, tostring, options, tableAppearances⟩ fuel =
      putValue ⟨heap', sorter', tostring, options, tableAppearances⟩ fuel := by
  induction fuel with
  | zero => rfl
  | succ fuel ih =>
      funext v
      cases v with
      | table t =>
          have hitem : putItem ⟨heap, sorter, tostring, options, tableAppearances⟩ =
              putItem ⟨heap', sorter', tostring, options, tableAppearances⟩ := by
            funext putValue t count i
            simp only [putItem, h.rawget_eq]
          have hentry : putEntry ⟨heap, sorter, tostring, options, tableAppearances⟩ =
              putEntry ⟨heap', sorter', tostring, options, tableAppearances⟩ := by
            funext putValue t count i
            simp only [putEntry, h.rawget_eq]
            rfl
          have hkeys := h.getNonSequentialKeys_eq sorter sorter' hdistinct t
          simp only [putValue, putTable, putContents, putClosing, hitem, hentry, hkeys,
            h.getSequenceLength_eq, h.metatable, h.KEY, h.METATABLE, ih]
          rfl
      | other kind _ => cases kind <;> rfl
      | nil | boolean | number | string => rfl

end Reordered

/-- The text for a value is the same for every order of `next` and every sort. -/
theorem inspect_eq_of_reordered [Fintype α] (sorter sorter' : TableSort α)
    (h : Reordered heap heap') (hdistinct : Distinct heap) (tostring : Value α → List UInt8)
    (options : Options) (root : Value α) (more : Nat) :
    inspect heap sorter tostring options (Fintype.card α + 1 + more) root =
      inspect heap' sorter' tostring options (Fintype.card α + 1 + more) root := by
  rw [inspect, inspect, h.appearances_eq]
  simp only [h.putValue_eq sorter sorter' hdistinct]

/-- A table with two names, one of them for itself, in either order. -/
def ring (swapped : Bool) : Heap (Option Bool) where
  entries := fun t =>
    if t = none then
      if swapped then [(.string [98], .number 1), (.string [97], .table none)]
      else [(.string [97], .table none), (.string [98], .number 1)]
    else []
  metatable := fun _ => .nil
  KEY := some false
  METATABLE := some true
  keys_nodup := by cases swapped <;> decide
  value_ne_nil := by cases swapped <;> decide

theorem ring_reordered : Reordered (ring false) (ring true) := ⟨by decide, rfl, rfl, rfl⟩

theorem ring_distinct : Distinct (ring false) := by
  unfold Distinct
  decide

theorem inspect_ring :
    inspect (ring false) (.merge _) (fun _ => []) {} (Fintype.card (Option Bool) + 1 + 0)
        (.table none) =
      inspect (ring true) (.merge _) (fun _ => []) {} (Fintype.card (Option Bool) + 1 + 0)
        (.table none) :=
  inspect_eq_of_reordered (.merge _) (.merge _) ring_reordered ring_distinct (fun _ => []) {}
    (.table none) 0

end CodeSlices.Inspect
