import Mathlib.Data.Fintype.Pigeonhole
import Mathlib.Data.Set.Finite.Basic
import Mathlib.Logic.Relation
import Mathlib.Order.WellFounded

/-!
# Depth-first traversals

A traversal goes through the entries of a node and enters a node below each entry that it follows. A
state goes along with it: what is entered below an entry may depend on everything entered before.
The forest of a traversal is the one that is right at each of its entries, and there is one exactly
when no node that can be entered leads back to itself, as long as finitely many nodes have entries.
-/

namespace CodeSlices

/-- The entries of a node, with the forests below them. -/
inductive Forest (α : Type*)
  | nil
  | cons (entry : α) (below rest : Forest α)

namespace Forest

variable {α : Type*}

def roots : Forest α → List α
  | nil => []
  | cons a _ rest => a :: rest.roots

/-- The entries with their depths, each before those below it. -/
def preorder (depth : Nat) : Forest α → List (Nat × α)
  | nil => []
  | cons a below rest => (depth, a) :: (below.preorder (depth + 1) ++ rest.preorder depth)

def height : Forest α → Nat
  | nil => 0
  | cons _ below rest => max (below.height + 1) rest.height

def append : Forest α → Forest α → Forest α
  | nil, right => right
  | cons a below rest, right => cons a below (rest.append right)

theorem roots_append (left right : Forest α) :
    (left.append right).roots = left.roots ++ right.roots := by
  induction left with
  | nil => rfl
  | cons a below rest _ ih => exact congrArg (a :: ·) ih

theorem height_lt_append (left : Forest α) (a : α) (below rest : Forest α) :
    below.height < (left.append (cons a below rest)).height := by
  induction left with
  | nil => exact Nat.lt_of_succ_le (Nat.le_max_left _ _)
  | cons a' below' left _ ih => exact ih.trans_le (Nat.le_max_right _ _)

/-- A forest splits at any of its entries. -/
theorem exists_append_of_roots {forest : Forest α} {before after : List α} {a : α}
    (hroots : forest.roots = before ++ a :: after) :
    ∃ left below rest : Forest α, left.append (cons a below rest) = forest ∧
      left.roots = before := by
  induction before generalizing forest with
  | nil =>
      cases forest with
      | nil => cases hroots
      | cons a' below rest =>
          obtain ⟨rfl, _⟩ := List.cons.inj hroots
          exact ⟨nil, below, rest, rfl, rfl⟩
  | cons b before ih =>
      cases forest with
      | nil => cases hroots
      | cons b' below' forest =>
          obtain ⟨rfl, hrest⟩ := List.cons.inj hroots
          obtain ⟨left, below, rest, rfl, rfl⟩ := ih hrest
          exact ⟨cons b' below' left, below, rest, rfl, rfl⟩

theorem le_of_mem_preorder {forest : Forest α} {depth : Nat} {place : Nat × α}
    (hmem : place ∈ forest.preorder depth) : depth ≤ place.1 := by
  induction forest generalizing depth with
  | nil => cases hmem
  | cons a below rest ihbelow ihrest =>
      rcases List.mem_cons.mp hmem with rfl | hmem
      · exact Nat.le_refl _
      rcases List.mem_append.mp hmem with hmem | hmem
      · exact (Nat.le_succ depth).trans (ihbelow hmem)
      · exact ihrest hmem

/-- What lies deeper than a depth ends where a forest of that depth begins. -/
theorem takeWhile_preorder (below rest : Forest α) (depth : Nat) :
    (below.preorder (depth + 1) ++ rest.preorder depth).takeWhile (fun place => depth < place.1) =
      below.preorder (depth + 1) := by
  rw [List.takeWhile_append_of_pos fun place hplace =>
    decide_eq_true (Nat.lt_of_succ_le (le_of_mem_preorder hplace))]
  cases rest with
  | nil => rw [preorder, List.takeWhile_nil, List.append_nil]
  | cons a sub rest =>
      rw [preorder, List.takeWhile_cons_of_neg (by simp), List.append_nil]

/-- A forest is known from its entries and their depths. -/
theorem preorder_injective {left right : Forest α} {depth : Nat}
    (h : left.preorder depth = right.preorder depth) : left = right := by
  induction left generalizing right depth with
  | nil =>
      cases right with
      | nil => rfl
      | cons a below rest => cases h
  | cons a below rest ihbelow ihrest =>
      cases right with
      | nil => cases h
      | cons a' below' rest' =>
          obtain ⟨hentry, htail⟩ := List.cons.inj h
          have hbelow := congrArg (List.takeWhile fun place => depth < place.1) htail
          rw [takeWhile_preorder, takeWhile_preorder] at hbelow
          rw [hbelow] at htail
          rw [(Prod.mk.inj hentry).2, ihbelow hbelow, ihrest (List.append_cancel_left htail)]

end Forest

/-- What a traversal goes through: the entries of a node, those that are followed, the node entered
below one, and the state in which the entries of a node are gone through. -/
structure Traversal (ν α σ : Type*) where
  children : ν → List α
  follow : α → Bool
  enter : α → σ → ν
  start : ν → σ

namespace Traversal

variable {ν α σ : Type*} (t : Traversal ν α σ)

/-- Visit the node below an entry, if it is followed. -/
def under (visit : ν → Option (Forest α × σ)) (a : α) (s : σ) : Option (Forest α × σ) :=
  if t.follow a then visit (t.enter a s) else some (.nil, s)

/-- Go through the entries that are left. -/
def walk (visit : ν → Option (Forest α × σ)) : List α → σ → Option (Forest α × σ)
  | [], s => some (.nil, s)
  | a :: as, s =>
      (t.under visit a s).bind fun below =>
        (walk visit as below.2).map fun rest => (.cons a below.1 rest.1, rest.2)

/-- Visit a node, with calls nested no deeper than the fuel. -/
def visit : Nat → ν → Option (Forest α × σ)
  | 0, _ => none
  | fuel + 1, n => t.walk (visit fuel) (t.children n) (t.start n)

/-- The state after a forest. -/
def exit : Forest α → σ → σ
  | .nil, s => s
  | .cons a below rest, s =>
      if t.follow a then exit rest (exit below (t.start (t.enter a s))) else exit rest s

/-- Below each entry there is what the traversal finds there. -/
def Lists : Forest α → σ → Prop
  | .nil, _ => True
  | .cons a below rest, s =>
      if t.follow a then
        below.roots = t.children (t.enter a s) ∧ Lists below (t.start (t.enter a s)) ∧
          Lists rest (t.exit below (t.start (t.enter a s)))
      else below = .nil ∧ Lists rest s

/-- The forest is the one of a node. -/
def IsForestOf (n : ν) (forest : Forest α) : Prop :=
  forest.roots = t.children n ∧ t.Lists forest (t.start n)

variable {t} {n n' : ν} {s s' : σ} {a : α} {as : List α} {forest below rest : Forest α}

theorem under_of_follow {visit : ν → Option (Forest α × σ)} (hfollow : t.follow a) :
    t.under visit a s = visit (t.enter a s) := if_pos hfollow

theorem under_of_not_follow {visit : ν → Option (Forest α × σ)} (hfollow : ¬ t.follow a) :
    t.under visit a s = some (.nil, s) := if_neg hfollow

theorem lists_cons_of_follow (hfollow : t.follow a) : t.Lists (.cons a below rest) s ↔
    t.IsForestOf (t.enter a s) below ∧ t.Lists rest (t.exit below (t.start (t.enter a s))) := by
  rw [Lists, if_pos hfollow, IsForestOf, and_assoc]

theorem lists_cons_of_not_follow (hfollow : ¬ t.follow a) :
    t.Lists (.cons a below rest) s ↔ below = .nil ∧ t.Lists rest s := by
  rw [Lists, if_neg hfollow]

theorem exit_cons_of_follow (hfollow : t.follow a) :
    t.exit (.cons a below rest) s = t.exit rest (t.exit below (t.start (t.enter a s))) :=
  if_pos hfollow

theorem exit_cons_of_not_follow (hfollow : ¬ t.follow a) :
    t.exit (.cons a below rest) s = t.exit rest s := if_neg hfollow

theorem lists_of_walk {visit : ν → Option (Forest α × σ)}
    (hvisit : ∀ n below s', visit n = some (below, s') →
      t.IsForestOf n below ∧ t.exit below (t.start n) = s')
    (hwalk : t.walk visit as s = some (forest, s')) :
    forest.roots = as ∧ t.Lists forest s ∧ t.exit forest s = s' := by
  induction as generalizing s forest with
  | nil =>
      obtain ⟨rfl, rfl⟩ := Prod.mk.inj (Option.some.inj hwalk)
      exact ⟨rfl, trivial, rfl⟩
  | cons a as ih =>
      obtain ⟨⟨below, s₁⟩, hbelow, hwalk⟩ := Option.bind_eq_some_iff.mp hwalk
      obtain ⟨⟨rest, s₂⟩, hrest, hwalk⟩ := Option.map_eq_some_iff.mp hwalk
      obtain ⟨rfl, rfl⟩ := Prod.mk.inj hwalk
      obtain ⟨hroots, hlists, hexit⟩ := ih hrest
      by_cases hfollow : t.follow a
      · rw [under_of_follow hfollow] at hbelow
        obtain ⟨hforest, rfl⟩ := hvisit _ _ _ hbelow
        exact ⟨congrArg (a :: ·) hroots, (lists_cons_of_follow hfollow).mpr ⟨hforest, hlists⟩,
          (exit_cons_of_follow hfollow).trans hexit⟩
      · rw [under_of_not_follow hfollow] at hbelow
        obtain ⟨rfl, rfl⟩ := Prod.mk.inj (Option.some.inj hbelow)
        exact ⟨congrArg (a :: ·) hroots, (lists_cons_of_not_follow hfollow).mpr ⟨rfl, hlists⟩,
          (exit_cons_of_not_follow hfollow).trans hexit⟩

theorem isForestOf_of_visit {fuel : Nat} (hvisit : t.visit fuel n = some (forest, s)) :
    t.IsForestOf n forest ∧ t.exit forest (t.start n) = s := by
  induction fuel generalizing n forest s with
  | zero => cases hvisit
  | succ fuel ih =>
      obtain ⟨hroots, hlists, hexit⟩ := lists_of_walk (fun n below s' h => ih h) hvisit
      exact ⟨⟨hroots, hlists⟩, hexit⟩

theorem walk_of_lists (hlists : t.Lists forest s) {fuel : Nat} (hfuel : forest.height ≤ fuel) :
    t.walk (t.visit fuel) forest.roots s = some (forest, t.exit forest s) := by
  induction forest generalizing s fuel with
  | nil => rfl
  | cons a below rest ihbelow ihrest =>
      obtain ⟨hbelow, hrest⟩ := max_le_iff.mp hfuel
      by_cases hfollow : t.follow a
      · obtain ⟨⟨hroots, hlists⟩, hlists'⟩ := (lists_cons_of_follow hfollow).mp hlists
        obtain ⟨k, rfl⟩ := Nat.exists_eq_add_of_le' hbelow
        have hvisit : t.visit (k + below.height + 1) (t.enter a s) =
            some (below, t.exit below (t.start (t.enter a s))) := by
          rw [visit, ← hroots, ihbelow hlists (Nat.le_add_left _ k)]
        rw [Forest.roots, walk, under_of_follow hfollow, ← Nat.add_assoc, hvisit, Option.bind_some,
          Nat.add_assoc, ihrest hlists' hrest, Option.map_some, exit_cons_of_follow hfollow]
      · obtain ⟨rfl, hlists'⟩ := (lists_cons_of_not_follow hfollow).mp hlists
        rw [Forest.roots, walk, under_of_not_follow hfollow, Option.bind_some, ihrest hlists' hrest,
          Option.map_some, exit_cons_of_not_follow hfollow]

/-- Some fuel is enough to find a forest exactly when it is the forest of the node. -/
theorem exists_visit_iff :
    (∃ fuel s, t.visit fuel n = some (forest, s)) ↔ t.IsForestOf n forest := by
  refine ⟨fun ⟨fuel, s, hvisit⟩ => (isForestOf_of_visit hvisit).1, fun ⟨hroots, hlists⟩ => ?_⟩
  refine ⟨forest.height + 1, t.exit forest (t.start n), ?_⟩
  rw [visit, ← hroots, walk_of_lists hlists (Nat.le_refl _)]

theorem eq_of_lists {left right : Forest α} (hleft : t.Lists left s) (hright : t.Lists right s)
    (hroots : left.roots = right.roots) : left = right := by
  induction left generalizing right s with
  | nil =>
      cases right with
      | nil => rfl
      | cons a below rest => cases hroots
  | cons a below rest ihbelow ihrest =>
      cases right with
      | nil => cases hroots
      | cons a' below' rest' =>
          obtain ⟨rfl, hrest⟩ := List.cons.inj hroots
          by_cases hfollow : t.follow a
          · obtain ⟨⟨hroots, hbelow⟩, hlists⟩ := (lists_cons_of_follow hfollow).mp hleft
            obtain ⟨⟨hroots', hbelow'⟩, hlists'⟩ := (lists_cons_of_follow hfollow).mp hright
            obtain rfl := ihbelow hbelow hbelow' (hroots.trans hroots'.symm)
            rw [ihrest hlists hlists' hrest]
          · obtain ⟨rfl, hlists⟩ := (lists_cons_of_not_follow hfollow).mp hleft
            obtain ⟨rfl, hlists'⟩ := (lists_cons_of_not_follow hfollow).mp hright
            rw [ihrest hlists hlists' hrest]

theorem lists_append {left right : Forest α} : t.Lists (left.append right) s ↔
    t.Lists left s ∧ t.Lists right (t.exit left s) := by
  induction left generalizing s with
  | nil => exact (and_iff_right trivial).symm
  | cons a below rest _ ih =>
      rw [Forest.append]
      by_cases hfollow : t.follow a
      · rw [lists_cons_of_follow hfollow, lists_cons_of_follow hfollow, ih,
          exit_cons_of_follow hfollow, and_assoc]
      · rw [lists_cons_of_not_follow hfollow, lists_cons_of_not_follow hfollow, ih,
          exit_cons_of_not_follow hfollow, and_assoc]

/-! ### When there is a forest -/

variable (t) in
/-- A node is entered from another below one of its entries, after those before that. -/
def LeadsBelow (n : ν) (a : α) (n' : ν) : Prop := ∃ before after forest,
  t.children n = before ++ a :: after ∧ t.follow a ∧ forest.roots = before ∧
    t.Lists forest (t.start n) ∧ n' = t.enter a (t.exit forest (t.start n))

variable (t) in
def Leads (n n' : ν) : Prop := ∃ a, t.LeadsBelow n a n'

theorem LeadsBelow.mem_children (hleads : t.LeadsBelow n a n') : a ∈ t.children n := by
  obtain ⟨before, after, _, hchildren, _⟩ := hleads
  rw [hchildren]
  exact List.mem_append_right _ List.mem_cons_self

theorem LeadsBelow.follow (hleads : t.LeadsBelow n a n') : t.follow a := by
  obtain ⟨_, _, _, _, hfollow, _⟩ := hleads
  exact hfollow

/-- Below an entry of its forest that is followed, a node leads to the one whose forest is there. -/
theorem IsForestOf.leadsBelow {left : Forest α}
    (hforest : t.IsForestOf n (left.append (.cons a below rest))) (hfollow : t.follow a) :
    ∃ n', t.LeadsBelow n a n' ∧ t.IsForestOf n' below := by
  obtain ⟨hroots, hlists⟩ := hforest
  obtain ⟨hleft, hright⟩ := lists_append.mp hlists
  rw [Forest.roots_append] at hroots
  exact ⟨_, ⟨left.roots, rest.roots, left, hroots.symm, hfollow, rfl, hleft, rfl⟩,
    ((lists_cons_of_follow hfollow).mp hright).1⟩

/-- A node that is entered has its forest below the entry, in the forest of the other. -/
theorem LeadsBelow.exists_append (hleads : t.LeadsBelow n a n') (hforest : t.IsForestOf n forest) :
    ∃ left below rest : Forest α, left.append (.cons a below rest) = forest ∧
      t.IsForestOf n' below := by
  obtain ⟨before, after, earlier, hchildren, hfollow, rfl, hearlier, rfl⟩ := hleads
  obtain ⟨left, below, rest, rfl, hleft⟩ :=
    Forest.exists_append_of_roots (hforest.1.trans hchildren)
  obtain ⟨hlists, hlists'⟩ := lists_append.mp hforest.2
  obtain rfl := eq_of_lists hlists hearlier hleft
  exact ⟨left, below, rest, rfl, ((lists_cons_of_follow hfollow).mp hlists').1⟩

theorem acc_of_isForestOf (hforest : t.IsForestOf n forest) :
    Acc (fun n' n => t.Leads n n') n := by
  induction hheight : forest.height using Nat.strong_induction_on generalizing n forest with
  | _ height ih =>
      refine Acc.intro n fun n' ⟨a, hleads⟩ => ?_
      obtain ⟨left, below, rest, rfl, hbelow⟩ := hleads.exists_append hforest
      exact ih _ (hheight ▸ Forest.height_lt_append left a below rest) hbelow rfl

theorem exists_isForestOf_of_acc (hacc : Acc (fun n' n => t.Leads n n') n) :
    ∃ forest, t.IsForestOf n forest := by
  induction hacc with
  | intro n _ ih =>
      suffices hrest : ∀ (after before : List α) (forest : Forest α),
          t.children n = before ++ after → forest.roots = before → t.Lists forest (t.start n) →
            ∃ whole, t.IsForestOf n whole from hrest (t.children n) [] .nil rfl rfl trivial
      intro after
      induction after with
      | nil =>
          intro before forest hchildren hroots hlists
          exact ⟨forest, by rw [hroots, hchildren, List.append_nil], hlists⟩
      | cons a after ihafter =>
          intro before forest hchildren hroots hlists
          obtain ⟨below, hbelow⟩ : ∃ below, t.Lists (.cons a below .nil)
              (t.exit forest (t.start n)) := by
            by_cases hfollow : t.follow a
            · obtain ⟨below, hbelow⟩ := ih _ ⟨a, before, after, forest, hchildren, hfollow, hroots,
                hlists, rfl⟩
              exact ⟨below, (lists_cons_of_follow hfollow).mpr ⟨hbelow, trivial⟩⟩
            · exact ⟨.nil, (lists_cons_of_not_follow hfollow).mpr ⟨rfl, trivial⟩⟩
          refine ihafter (before ++ [a]) (forest.append (.cons a below .nil)) ?_ ?_ ?_
          · rw [hchildren, List.append_assoc, List.singleton_append]
          · rw [Forest.roots_append, hroots]
            rfl
          · exact lists_append.mpr ⟨hlists, hbelow⟩

end Traversal

open Relation in
/-- If finitely many nodes lead anywhere, every path ends exactly when no node on one leads back to
itself. -/
theorem acc_iff_no_cycle {ν : Type*} {r : ν → ν → Prop} (hfinite : {n | ∃ n', r n n'}.Finite)
    {n : ν} :
    Acc (fun n' n => r n n') n ↔ ∀ m, ReflTransGen r n m → ¬ TransGen r m m := by
  constructor
  · intro hacc
    induction hacc with
    | intro n _ ih =>
        intro m hreach hcycle
        rcases hreach.cases_head with rfl | ⟨n', hstep, hreach⟩
        · obtain ⟨n', hstep, hback⟩ := TransGen.head'_iff.mp hcycle
          exact ih n' hstep n hback hcycle
        · exact ih n' hstep m hreach hcycle
  · intro hcycle
    rw [acc_iff_isEmpty_descending_chain]
    refine ⟨fun ⟨path, hstart, hpath⟩ => ?_⟩
    have hmem : ∀ k, path k ∈ {n | ∃ n', r n n'} := fun k => ⟨path (k + 1), hpath k⟩
    have hreach : ∀ k, ReflTransGen r n (path k) := by
      intro k
      induction k with
      | zero => rw [hstart]
      | succ k ih => exact ih.tail (hpath k)
    have hon : ∀ i k, TransGen r (path i) (path (i + k + 1)) := by
      intro i k
      induction k with
      | zero => exact .single (hpath i)
      | succ k ih => exact ih.tail (hpath (i + k + 1))
    have hfin := hfinite.to_subtype
    obtain ⟨i, j, hne, heq⟩ := Finite.exists_ne_map_eq_of_infinite
      fun k => (⟨path k, hmem k⟩ : {n | ∃ n', r n n'})
    have heq := Subtype.mk.inj heq
    rcases Nat.lt_or_gt_of_ne hne with hlt | hlt
    · obtain ⟨k, rfl⟩ := Nat.exists_eq_add_of_lt hlt
      exact hcycle _ (hreach i) (heq ▸ hon i k)
    · obtain ⟨k, rfl⟩ := Nat.exists_eq_add_of_lt hlt
      exact hcycle _ (hreach j) (heq ▸ hon j k)

namespace Traversal

open Relation

variable {ν α σ : Type*} {t : Traversal ν α σ} {n : ν}

/-- A visit comes to an end exactly when no node that is entered leads back to itself. -/
theorem visit_ends_iff (hfinite : {n | t.children n ≠ []}.Finite) :
    (∃ fuel result, t.visit fuel n = some result) ↔
      ∀ m, ReflTransGen t.Leads n m → ¬ TransGen t.Leads m m := by
  have hleads : {n | ∃ n', t.Leads n n'}.Finite := by
    refine hfinite.subset fun n hn => ?_
    obtain ⟨n', a, hleads⟩ := hn
    exact List.ne_nil_of_mem hleads.mem_children
  rw [← acc_iff_no_cycle hleads]
  refine ⟨fun ⟨fuel, ⟨forest, s⟩, hvisit⟩ => acc_of_isForestOf (isForestOf_of_visit hvisit).1,
    fun hacc => ?_⟩
  obtain ⟨forest, hforest⟩ := exists_isForestOf_of_acc hacc
  obtain ⟨fuel, s, hvisit⟩ := exists_visit_iff.mpr hforest
  exact ⟨fuel, _, hvisit⟩

end Traversal

end CodeSlices
