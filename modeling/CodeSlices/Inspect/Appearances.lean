import CodeSlices.Inspect.Value
import CodeSlices.Lib.Loops
import CodeSlices.Lib.References

/-!
# Counting the appearances of tables

`countTableAppearances` of `lua/inspect.lua` ends on every heap, also where tables refer to each
other in circles, and counts the references to each table that the root leads to.
-/

namespace CodeSlices.Inspect

open References

variable {α : Type} [DecidableEq α]

/-- `tableAppearances` is the state, `none` a table it does not have. -/
def countTableAppearances (heap : Heap α) : Nat → Value α → StateT (α → Option Nat) Option Unit
  | 0, _ => failure
  | fuel + 1, .table t => do
      let tableAppearances ← get
      match tableAppearances t with
      | none => do
          modify fun tableAppearances => Function.update tableAppearances t (some 1)
          (heap.entries t).forM fun e => do
            countTableAppearances heap fuel e.1
            countTableAppearances heap fuel e.2
          countTableAppearances heap fuel (heap.metatable t)
      | some n => modify fun tableAppearances => Function.update tableAppearances t (some (n + 1))
  | _ + 1, _ => pure ()

variable {heap : Heap α} {root t : α} {n : Nat} {v : Value α} {entered : Finset α}
  {pending : Multiset α} {counts : α → Option Nat}

omit [DecidableEq α] in
theorem coe_flatMap {ι : Type} (f : ι → List α) (xs : List ι) :
    (xs.flatMap f : Multiset α) = (xs.map fun i => (f i : Multiset α)).sum := by
  induction xs with
  | nil => rfl
  | cons i xs ih => rw [List.flatMap_cons, ← Multiset.coe_add, ih, List.map_cons, List.sum_cons]

omit [DecidableEq α] in
theorem coe_refs (heap : Heap α) (t : α) :
    (refs heap t : Multiset α) = ((heap.entries t).map fun e =>
      (tables e.1 : Multiset α) + (tables e.2 : Multiset α)).sum +
        (tables (heap.metatable t) : Multiset α) := by
  rw [refs, ← Multiset.coe_add, coe_flatMap]
  rfl

/-- The counts while some references are still to be visited. -/
structure Counted (heap : Heap α) (root : α) (entered : Finset α) (pending : Multiset α)
    (counts : α → Option Nat) : Prop where
  track : Track (refs heap) (fun _ => True) True root entered pending
  isSome_iff : ∀ a, (counts a).isSome ↔ a ∈ entered
  count : ∀ a, (counts a).getD 0 + pending.count a =
    (if a = root then 1 else 0) + mentions (refs heap) entered a

namespace Counted

theorem enter (h : Counted heap root entered (t ::ₘ pending) counts) (hnone : counts t = none) :
    t ∉ entered ∧ Counted heap root (insert t entered) (refs heap t + pending)
      (Function.update counts t (some 1)) := by
  have hnot : t ∉ entered := by
    rw [← h.isSome_iff, hnone]
    exact Bool.false_ne_true
  refine ⟨hnot, h.track.insert trivial hnot, ?_, ?_⟩
  · intro a
    rw [Finset.mem_insert]
    by_cases ha : a = t
    · subst ha
      rw [Function.update_self]
      exact iff_of_true rfl (.inl rfl)
    · rw [Function.update_of_ne ha, h.isSome_iff, or_iff_right ha]
  · intro a
    have hcount := h.count a
    rw [Multiset.count_cons] at hcount
    rw [mentions_insert hnot, Multiset.count_add, Multiset.coe_count]
    by_cases ha : a = t
    · subst ha
      rw [hnone, if_pos rfl, Option.getD_none] at hcount
      rw [Function.update_self, Option.getD_some]
      omega
    · rw [if_neg ha] at hcount
      rw [Function.update_of_ne ha]
      omega

theorem again (h : Counted heap root entered (t ::ₘ pending) counts) (hsome : counts t = some n) :
    Counted heap root entered pending (Function.update counts t (some (n + 1))) := by
  have hmem : t ∈ entered := by
    rw [← h.isSome_iff, hsome]
    rfl
  refine ⟨h.track.drop fun _ _ => hmem, ?_, ?_⟩
  · intro a
    by_cases ha : a = t
    · subst ha
      rw [Function.update_self]
      exact iff_of_true rfl hmem
    · rw [Function.update_of_ne ha, h.isSome_iff]
  · intro a
    have hcount := h.count a
    rw [Multiset.count_cons] at hcount
    by_cases ha : a = t
    · subst ha
      rw [hsome, if_pos rfl, Option.getD_some] at hcount
      rw [Function.update_self, Option.getD_some]
      omega
    · rw [if_neg ha] at hcount
      rw [Function.update_of_ne ha]
      omega

end Counted

/-- Counts for some tables at least. -/
def CountedFrom (heap : Heap α) (root : α) (n : Nat) (pending : Multiset α)
    (counts : α → Option Nat) : Prop :=
  ∃ entered : Finset α, n ≤ entered.card ∧ Counted heap root entered pending counts

theorem does_countTableAppearances [Fintype α] (heap : Heap α) (root : α) (fuel n : Nat)
    (hfuel : Fintype.card α < fuel + n) (v : Value α) (pending : Multiset α) :
    Does (CountedFrom heap root n (tables v + pending)) (countTableAppearances heap fuel v) ()
      (CountedFrom heap root n pending) := by
  induction fuel generalizing n v pending with
  | zero =>
      rintro s ⟨entered, hn, -⟩
      have hcard := Finset.card_le_univ entered
      omega
  | succ fuel ih =>
      cases v with
      | table t =>
          refine Does.read fun counts hcounts => ?_
          obtain ⟨entered, hn, h⟩ := hcounts
          rw [tables, Multiset.coe_singleton, Multiset.singleton_add] at h
          cases hget : counts t with
          | some n =>
              refine Does.modify ?_
              rintro s rfl
              exact ⟨entered, hn, h.again hget⟩
          | none =>
              obtain ⟨hnot, hnew⟩ := h.enter hget
              have hcard : n + 1 ≤ (insert t entered).card := by
                rw [Finset.card_insert_of_notMem hnot]
                exact Nat.succ_le_succ hn
              have hweaken : ∀ s, CountedFrom heap root (n + 1) pending s →
                  CountedFrom heap root n pending s := by
                rintro s ⟨entered, hle, h⟩
                exact ⟨entered, (Nat.le_succ n).trans hle, h⟩
              have hnext := ih (n + 1) (by omega)
              refine Does.bind (Q := CountedFrom heap root (n + 1) (refs heap t + pending))
                (Does.modify ?_) ?_
              · rintro s rfl
                exact ⟨_, hcard, hnew⟩
              · rw [coe_refs, add_assoc]
                refine (Does.bind (Does.forM ?_ (heap.entries t) _) (hnext _ pending)).post hweaken
                intro e p
                rw [add_assoc]
                exact (hnext e.1 _).bind (hnext e.2 p)
      | nil | boolean | number | string | other =>
          change Does (CountedFrom heap root n (0 + pending)) _ _ _
          rw [zero_add]
          exact Does.pure _

/-- The counts when nothing is left to be visited. -/
theorem Counted.eq (h : Counted heap root entered 0 counts) (a : α) :
    counts a = if a ∈ entered then
      some ((if a = root then 1 else 0) + mentions (refs heap) entered a) else none := by
  have hcount := h.count a
  rw [Multiset.count_zero, add_zero] at hcount
  have hsome := h.isSome_iff a
  cases hget : counts a with
  | none =>
      rw [hget] at hsome
      rw [if_neg fun ha => Bool.false_ne_true (hsome.mpr ha)]
  | some n =>
      rw [hget] at hsome hcount
      rw [if_pos (hsome.mp rfl), ← hcount]
      rfl

theorem Counted.mem_iff (h : Counted heap root entered 0 counts) (a : α) :
    a ∈ entered ↔ Reach (refs heap) (fun _ => True) root a := by
  rw [h.track.mem_iff trivial, and_iff_right trivial]

theorem exists_counted [Fintype α] (heap : Heap α) (root : α) (more : Nat) :
    ∃ (counts : α → Option Nat) (entered : Finset α),
      countTableAppearances heap (Fintype.card α + 1 + more) (.table root) (fun _ => none) =
        some ((), counts) ∧ Counted heap root entered 0 counts := by
  have hstart : CountedFrom heap root 0 ({root} + 0) fun _ => none := by
    refine ⟨∅, le_rfl, ?_, fun a => iff_of_false Bool.false_ne_true (Finset.notMem_empty a), ?_⟩
    · rw [add_zero]
      exact Track.init _ _ _ root
    · intro a
      rw [add_zero, Multiset.count_singleton, Option.getD_none, zero_add]
      rfl
  obtain ⟨counts, hrun, entered, -, h⟩ :=
    does_countTableAppearances heap root (Fintype.card α + 1 + more) 0 (by omega) (.table root) 0
      _ hstart
  exact ⟨counts, entered, hrun, h⟩

/-- The tables the root leads to are counted, each as often as it is referred to. -/
theorem countTableAppearances_eq [Fintype α] (heap : Heap α) (root : α) (more : Nat) :
    ∃ (tableAppearances : α → Option Nat) (all : Finset α),
      countTableAppearances heap (Fintype.card α + 1 + more) (.table root) (fun _ => none) =
        some ((), tableAppearances) ∧
      (∀ a, a ∈ all ↔ Reach (refs heap) (fun _ => True) root a) ∧
      ∀ a, tableAppearances a = if a ∈ all then
        some ((if a = root then 1 else 0) + mentions (refs heap) all a) else none := by
  obtain ⟨counts, all, hrun, h⟩ := exists_counted heap root more
  exact ⟨counts, all, hrun, h.mem_iff, h.eq⟩

end CodeSlices.Inspect
