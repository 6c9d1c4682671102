import Mathlib.Algebra.Order.BigOperators.Group.Finset
import Mathlib.Data.Multiset.Count
import Mathlib.Logic.Relation

/-!
# Traversals that enter nodes once

What a traversal of a graph keeps while it visits the references of the nodes it has entered. Not
all nodes may be entered; a traversal is full when each visit enters the node, unless it has been
entered before.
-/

namespace CodeSlices.References

variable {α : Type*} [DecidableEq α] {refs : α → List α} {enter : α → Prop} {full : Prop}
  {root a b : α} {entered : Finset α} {pending : Multiset α}

/-- How often the entered nodes refer to a node. -/
def mentions (refs : α → List α) (entered : Finset α) (a : α) : Nat :=
  ∑ b ∈ entered, (refs b).count a

/-- A node the root leads to, through nodes that may be entered. -/
def Reach (refs : α → List α) (enter : α → Prop) (root : α) : α → Prop :=
  Relation.ReflTransGen (fun b a => enter b ∧ a ∈ refs b) root

/-- The nodes entered so far and the references still to be visited. -/
structure Track (refs : α → List α) (enter : α → Prop) (full : Prop) (root : α)
    (entered : Finset α) (pending : Multiset α) : Prop where
  enters : ∀ a ∈ entered, enter a
  reach : ∀ a, a ∈ entered ∨ a ∈ pending → Reach refs enter root a
  start : full → enter root → root ∈ entered ∨ root ∈ pending
  closed : full → ∀ b ∈ entered, ∀ a ∈ refs b, enter a → a ∈ entered ∨ a ∈ pending
  budget : ∀ a, pending.count a + (if a ∈ entered then 1 else 0) ≤
    (if a = root then 1 else 0) + mentions refs entered a

theorem mentions_insert (hnot : b ∉ entered) (a : α) :
    mentions refs (insert b entered) a = (refs b).count a + mentions refs entered a :=
  Finset.sum_insert hnot

theorem mentions_mono {entered' : Finset α} (hsub : entered ⊆ entered') (a : α) :
    mentions refs entered a ≤ mentions refs entered' a :=
  Finset.sum_le_sum_of_subset hsub

namespace Track

theorem init (refs : α → List α) (enter : α → Prop) (full : Prop) (root : α) :
    Track refs enter full root ∅ {root} where
  enters := fun a ha => absurd ha (Finset.notMem_empty a)
  reach := by
    rintro a (ha | ha)
    · exact absurd ha (Finset.notMem_empty a)
    · rw [Multiset.mem_singleton.mp ha]
      exact Relation.ReflTransGen.refl
  start := fun _ _ => .inr (Multiset.mem_singleton_self root)
  closed := fun _ b hb => absurd hb (Finset.notMem_empty b)
  budget := by
    intro a
    rw [Multiset.count_singleton, if_neg (Finset.notMem_empty a)]
    exact Nat.le_add_right _ _

/-- A node that is visited and not entered yet is entered. -/
theorem insert (htrack : Track refs enter full root entered (a ::ₘ pending)) (henter : enter a)
    (hnot : a ∉ entered) :
    Track refs enter full root (insert a entered) (↑(refs a) + pending) where
  enters := by
    intro b hb
    rcases Finset.mem_insert.mp hb with rfl | hb
    · exact henter
    · exact htrack.enters b hb
  reach := by
    have ha : Reach refs enter root a := htrack.reach a (.inr (Multiset.mem_cons_self a pending))
    intro b hb
    rcases hb with hb | hb
    · rcases Finset.mem_insert.mp hb with rfl | hb
      · exact ha
      · exact htrack.reach b (.inl hb)
    · rcases Multiset.mem_add.mp hb with hb | hb
      · exact ha.tail ⟨henter, Multiset.mem_coe.mp hb⟩
      · exact htrack.reach b (.inr (Multiset.mem_cons_of_mem hb))
  start := by
    intro hfull hroot
    rcases htrack.start hfull hroot with h | h
    · exact .inl (Finset.mem_insert_of_mem h)
    · rcases Multiset.mem_cons.mp h with rfl | h
      · exact .inl (Finset.mem_insert_self _ _)
      · exact .inr (Multiset.mem_add.mpr (.inr h))
  closed := by
    intro hfull b hb c hc hec
    rcases Finset.mem_insert.mp hb with rfl | hb
    · exact .inr (Multiset.mem_add.mpr (.inl (Multiset.mem_coe.mpr hc)))
    · rcases htrack.closed hfull b hb c hc hec with h | h
      · exact .inl (Finset.mem_insert_of_mem h)
      · rcases Multiset.mem_cons.mp h with rfl | h
        · exact .inl (Finset.mem_insert_self _ _)
        · exact .inr (Multiset.mem_add.mpr (.inr h))
  budget := by
    intro b
    have hb := htrack.budget b
    rw [mentions_insert hnot, Multiset.count_add, Multiset.coe_count]
    rw [Multiset.count_cons] at hb
    by_cases hab : b = a
    · subst hab
      rw [if_neg hnot, if_pos rfl] at hb
      rw [if_pos (Finset.mem_insert_self b entered)]
      omega
    · rw [if_neg hab] at hb
      have hmem : b ∈ Insert.insert a entered ↔ b ∈ entered := by
        rw [Finset.mem_insert, or_iff_right hab]
      rw [if_congr hmem rfl rfl]
      omega

/-- A visit that enters nothing, at a node that was entered or is not to be. -/
theorem drop (htrack : Track refs enter full root entered (a ::ₘ pending))
    (hdrop : full → enter a → a ∈ entered) : Track refs enter full root entered pending where
  enters := htrack.enters
  reach := fun b hb => htrack.reach b (hb.imp_right Multiset.mem_cons_of_mem)
  start := by
    intro hfull hroot
    rcases htrack.start hfull hroot with h | h
    · exact .inl h
    · rcases Multiset.mem_cons.mp h with rfl | h
      · exact .inl (hdrop hfull hroot)
      · exact .inr h
  closed := by
    intro hfull b hb c hc hec
    rcases htrack.closed hfull b hb c hc hec with h | h
    · exact .inl h
    · rcases Multiset.mem_cons.mp h with rfl | h
      · exact .inl (hdrop hfull hec)
      · exact .inr h
  budget := by
    intro b
    have hb := htrack.budget b
    have hle := Multiset.count_le_count_cons b a pending
    omega

/-- A node that is visited again has two references at least. -/
theorem two_le (htrack : Track refs enter full root entered (a ::ₘ pending)) (ha : a ∈ entered) :
    2 ≤ (if a = root then 1 else 0) + mentions refs entered a := by
  have hbudget := htrack.budget a
  rw [Multiset.count_cons_self, if_pos ha] at hbudget
  omega

theorem mem_of_reach (htrack : Track refs enter full root entered 0) (hfull : full)
    (ha : Reach refs enter root a) (henter : enter a) : a ∈ entered := by
  induction ha with
  | refl => exact (htrack.start hfull henter).resolve_right (Multiset.notMem_zero _)
  | tail _ hstep ih =>
      have hb := ih hstep.1
      exact (htrack.closed hfull _ hb _ hstep.2 henter).resolve_right (Multiset.notMem_zero _)

/-- When nothing is left, the entered nodes of a full traversal are those that are reached. -/
theorem mem_iff (htrack : Track refs enter full root entered 0) (hfull : full) (a : α) :
    a ∈ entered ↔ enter a ∧ Reach refs enter root a :=
  ⟨fun h => ⟨htrack.enters a h, htrack.reach a (.inl h)⟩,
    fun h => htrack.mem_of_reach hfull h.2 h.1⟩

end Track

end CodeSlices.References
