import Mathlib.Data.List.Perm.Basic
import CodeSlices.Lib.Traversal

/-!
# Forests of what entries have

A relation says which entries an entry has. A forest obeys it if below each of its entries there is
what that has, in any order. A traversal finds such a forest exactly when every node that it enters
shows what the entry has that it is entered below.
-/

namespace CodeSlices

open Relation

variable {ν α σ : Type*} {has : α → List α → Prop}

namespace Forest

variable {left right forest below rest : Forest α} {a : α}

def Obeys (has : α → List α → Prop) : Forest α → Prop
  | nil => True
  | cons a below rest => (∃ as, has a as ∧ below.roots.Perm as) ∧ below.Obeys has ∧ rest.Obeys has

theorem obeys_append : (left.append right).Obeys has ↔ left.Obeys has ∧ right.Obeys has := by
  induction left with
  | nil => exact (and_iff_right trivial).symm
  | cons a below rest _ ih => rw [append, Obeys, Obeys, ih, and_assoc, and_assoc]

theorem preorder_append (depth : Nat) :
    (left.append right).preorder depth = left.preorder depth ++ right.preorder depth := by
  induction left with
  | nil => rfl
  | cons a below rest _ ih =>
      rw [append, preorder, preorder, ih, List.cons_append, List.append_assoc]

theorem exists_append_of_mem_roots (ha : a ∈ forest.roots) :
    ∃ left below rest : Forest α, left.append (cons a below rest) = forest := by
  obtain ⟨before, after, hroots⟩ := List.append_of_mem ha
  obtain ⟨left, below, rest, hforest, _⟩ := exists_append_of_roots hroots
  exact ⟨left, below, rest, hforest⟩

theorem Obeys.exists_below (hobeys : forest.Obeys has) (ha : a ∈ forest.roots) :
    ∃ as, ∃ below : Forest α, has a as ∧ below.roots.Perm as ∧ below.Obeys has ∧
      below.height < forest.height := by
  obtain ⟨left, below, rest, rfl⟩ := exists_append_of_mem_roots ha
  obtain ⟨_, ⟨as, hhas, hperm⟩, hbelow, _⟩ := obeys_append.mp hobeys
  exact ⟨as, below, hhas, hperm, hbelow, height_lt_append left a below rest⟩

/-- A forest obeys if it does at each of its entries. -/
theorem obeys_of_append (h : ∀ (left : Forest α) (a : α) (below rest : Forest α),
    left.append (cons a below rest) = forest →
      (∃ as, has a as ∧ below.roots.Perm as) ∧ below.Obeys has) : forest.Obeys has := by
  induction forest with
  | nil => exact trivial
  | cons a below rest _ ih =>
      obtain ⟨hhas, hbelow⟩ := h .nil a below rest rfl
      exact ⟨hhas, hbelow, ih fun left a' below' rest' happend =>
        h (.cons a below left) a' below' rest' (congrArg (cons a below) happend)⟩

/-- The order of the entries aside, there is one forest that obeys. -/
theorem Obeys.preorder_perm (hunique : ∀ a as bs, has a as → has a bs → as = bs)
    (hleft : left.Obeys has) (hright : right.Obeys has) (hroots : left.roots.Perm right.roots)
    (depth : Nat) : (left.preorder depth).Perm (right.preorder depth) := by
  induction left generalizing right depth with
  | nil =>
      cases right with
      | nil => exact .refl _
      | cons a below rest => exact absurd hroots.length_eq (Nat.succ_ne_zero _).symm
  | cons a below rest ihbelow ihrest =>
      obtain ⟨⟨as, hhas, hperm⟩, hbelow, hrest⟩ := hleft
      obtain ⟨before, below', after, rfl⟩ :=
        exists_append_of_mem_roots (hroots.subset List.mem_cons_self)
      obtain ⟨hbefore, ⟨as', hhas', hperm'⟩, hbelow', hafter⟩ := obeys_append.mp hright
      obtain rfl := hunique _ _ _ hhas hhas'
      rw [roots_append] at hroots
      have hbelow := ihbelow hbelow hbelow' (hperm.trans hperm'.symm) (depth + 1)
      have hrest := ihrest hrest (obeys_append.mpr ⟨hbefore, hafter⟩)
        (roots_append before after ▸ (hroots.trans List.perm_middle).cons_inv) depth
      rw [preorder_append] at hrest
      calc
        (cons a below rest).preorder depth
          = (depth, a) :: (below.preorder (depth + 1) ++ rest.preorder depth) := rfl
        List.Perm _ ((depth, a) :: (below'.preorder (depth + 1) ++
              (before.preorder depth ++ after.preorder depth))) :=
          (hbelow.append hrest).cons _
        List.Perm _ ((depth, a) :: (before.preorder depth ++
              (below'.preorder (depth + 1) ++ after.preorder depth))) :=
          (List.perm_append_comm_assoc _ _ _).cons _
        List.Perm _ (before.preorder depth ++
              (depth, a) :: (below'.preorder (depth + 1) ++ after.preorder depth)) :=
          List.perm_middle.symm
        _ = (before.append (cons a below' after)).preorder depth := by
          rw [preorder_append, preorder]

end Forest

namespace Traversal

variable {t : Traversal ν α σ} {n n' : ν} {a : α} {forest tree : Forest α}

variable (t has) in
/-- Each node that is entered shows what the entry has that it is entered below. -/
def Shows (n : ν) : Prop := ∀ m a n', ReflTransGen t.Leads n m → t.LeadsBelow m a n' →
  ∀ as, has a as → (t.children n').Perm as

theorem Shows.of_leads (hshows : t.Shows has n) (hleads : t.LeadsBelow n a n') : t.Shows has n' :=
  fun m b n'' hreach => hshows m b n'' (.head ⟨a, hleads⟩ hreach)

theorem shows_of_obeys (hunique : ∀ a as bs, has a as → has a bs → as = bs)
    (hforest : t.IsForestOf n forest) (hobeys : forest.Obeys has) : t.Shows has n := by
  intro m a n' hreach hleads as hhas
  induction hreach using ReflTransGen.head_induction_on generalizing forest with
  | refl =>
      obtain ⟨left, below, rest, rfl, hbelow⟩ := hleads.exists_append hforest
      obtain ⟨_, ⟨as', hhas', hperm⟩, _⟩ := Forest.obeys_append.mp hobeys
      exact hbelow.1 ▸ hunique _ _ _ hhas hhas' ▸ hperm
  | head hstep _ ih =>
      obtain ⟨b, hstep⟩ := hstep
      obtain ⟨left, below, rest, rfl, hbelow⟩ := hstep.exists_append hforest
      obtain ⟨_, _, hobeys, _⟩ := Forest.obeys_append.mp hobeys
      exact ih hbelow hobeys

theorem shows_of_leads (h : ∀ a n', t.LeadsBelow n a n' →
    (∀ as, has a as → (t.children n').Perm as) ∧ t.Shows has n') : t.Shows has n := by
  intro m a n' hreach hleads
  rcases hreach.cases_head with rfl | ⟨_, ⟨b, hstep⟩, hrest⟩
  · exact (h a n' hleads).1
  · exact (h b _ hstep).2 m a n' hrest hleads

/-- Nothing is entered from a node none of whose entries is followed. -/
theorem shows_of_not_follow (hchildren : ∀ a ∈ t.children n, ¬ t.follow a) : t.Shows has n :=
  shows_of_leads fun a _ hleads => absurd hleads.follow (hchildren a hleads.mem_children)

theorem acc_of_shows (htree : tree.Obeys has) (hchildren : (t.children n).Perm tree.roots)
    (hshows : t.Shows has n) : Acc (fun n' n => t.Leads n n') n := by
  induction hheight : tree.height using Nat.strong_induction_on generalizing n tree with
  | _ height ih =>
      refine Acc.intro n fun n' ⟨a, hleads⟩ => ?_
      obtain ⟨as, below, hhas, hperm, hbelow, hlt⟩ :=
        htree.exists_below (hchildren.subset hleads.mem_children)
      have hchildren' := hshows n a n' .refl hleads as hhas
      exact ih _ (hheight ▸ hlt) hbelow (hchildren'.trans hperm.symm) (hshows.of_leads hleads) rfl

/-- The forest of a node obeys if what the nodes show obeys. -/
theorem obeys_of_shows (hleaf : ∀ a as, ¬ t.follow a → has a as → as = [])
    (htree : tree.Obeys has) (hchildren : (t.children n).Perm tree.roots)
    (hshows : t.Shows has n) (hforest : t.IsForestOf n forest) : forest.Obeys has := by
  induction hheight : tree.height using Nat.strong_induction_on generalizing n tree forest with
  | _ height ih =>
      refine Forest.obeys_of_append fun left a below rest happend => ?_
      subst happend
      have ha : a ∈ tree.roots := by
        refine hchildren.subset ?_
        rw [← hforest.1, Forest.roots_append]
        exact List.mem_append_right _ List.mem_cons_self
      obtain ⟨as, sub, hhas, hperm, hsub, hlt⟩ := htree.exists_below ha
      by_cases hfollow : t.follow a
      · obtain ⟨n', hleads, hbelow⟩ := hforest.leadsBelow hfollow
        have hchildren' := hshows n a n' .refl hleads as hhas
        refine ⟨⟨as, hhas, hbelow.1 ▸ hchildren'⟩, ?_⟩
        exact ih _ (hheight ▸ hlt) hsub (hchildren'.trans hperm.symm) (hshows.of_leads hleads)
          hbelow rfl
      · obtain ⟨_, hlists⟩ := lists_append.mp hforest.2
        obtain ⟨rfl, _⟩ := (lists_cons_of_not_follow hfollow).mp hlists
        exact ⟨⟨as, hhas, hleaf _ _ hfollow hhas ▸ .refl _⟩, trivial⟩

/-- Where a tree obeys, the forest of a node is one of the same entries exactly when every node that
is entered shows what is there. -/
theorem exists_obeys_iff (hunique : ∀ a as bs, has a as → has a bs → as = bs)
    (hleaf : ∀ a as, ¬ t.follow a → has a as → as = []) (htree : tree.Obeys has) :
    (∃ forest, t.IsForestOf n forest ∧ forest.Obeys has ∧ forest.roots.Perm tree.roots) ↔
      (t.children n).Perm tree.roots ∧ t.Shows has n := by
  constructor
  · rintro ⟨forest, hforest, hobeys, hroots⟩
    exact ⟨hforest.1 ▸ hroots, shows_of_obeys hunique hforest hobeys⟩
  · rintro ⟨hchildren, hshows⟩
    obtain ⟨forest, hforest⟩ := exists_isForestOf_of_acc (acc_of_shows htree hchildren hshows)
    exact ⟨forest, hforest, obeys_of_shows hleaf htree hchildren hshows hforest,
      hforest.1.symm ▸ hchildren⟩

end Traversal

end CodeSlices
