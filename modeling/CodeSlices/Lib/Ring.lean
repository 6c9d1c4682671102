import Mathlib.Data.List.Nodup
import Mathlib.Logic.Function.Iterate

/-!
# Circular doubly linked lists

Two pointer functions `next` and `prev` link a list of nodes into a ring through a head that is not
one of them. `Path a xs b` says that following `next` from `a` visits exactly `xs` before it comes
to `b`, with `prev` leading back at each step; a ring is a path from the head to itself without a
repetition. The rules below insert at the end and remove anywhere, given only what the new pointers
are at the places that changed.
-/

namespace CodeSlices.Ring

variable {α : Type*} {next prev next' prev' : α → α}

/-- From `a` the pointers lead through `xs` to `b`, and back. -/
def Path (next prev : α → α) : α → List α → α → Prop
  | a, [], b => next a = b ∧ prev b = a
  | a, x :: xs, b => next a = x ∧ prev x = a ∧ Path next prev x xs b

/-- The pointers link `head` and `xs` into one cycle. -/
structure IsRing (next prev : α → α) (head : α) (xs : List α) : Prop where
  nodup : (head :: xs).Nodup
  path : Path next prev head xs head

theorem path_append {a b y : α} {xs ys : List α} :
    Path next prev a (xs ++ y :: ys) b ↔ Path next prev a xs y ∧ Path next prev y ys b := by
  induction xs generalizing a with
  | nil => simp only [List.nil_append, Path, and_assoc]
  | cons x xs ih => simp only [List.cons_append, Path, ih, and_assoc]

theorem Path.prev_mem {a b : α} {xs : List α} (hpath : Path next prev a xs b) :
    prev b ∈ a :: xs := by
  induction xs generalizing a with
  | nil => exact hpath.2 ▸ List.mem_singleton_self _
  | cons x xs ih => exact List.mem_cons_of_mem a (ih hpath.2.2)

theorem Path.congr {a b : α} {xs : List α} (hpath : Path next prev a xs b)
    (hnext : ∀ x ∈ a :: xs, next' x = next x) (hprev : ∀ x ∈ xs ++ [b], prev' x = prev x) :
    Path next' prev' a xs b := by
  induction xs generalizing a with
  | nil =>
      rw [Path, hnext a (List.mem_singleton_self a), hprev b (List.mem_singleton_self b)]
      exact hpath
  | cons x xs ih =>
      refine ⟨?_, ?_, ih hpath.2.2 ?_ ?_⟩
      · rw [hnext a List.mem_cons_self]
        exact hpath.1
      · rw [hprev x List.mem_cons_self]
        exact hpath.2.1
      · exact fun y hy => hnext y (List.mem_cons_of_mem a hy)
      · exact fun y hy => hprev y (List.mem_cons_of_mem x hy)

/-- Redirect the last pointer of a path from `b` to `c`. -/
theorem Path.retarget {a b c : α} {xs : List α} (hpath : Path next prev a xs b)
    (hnodup : (a :: xs).Nodup) (hlast : next' (prev b) = c) (hback : prev' c = prev b)
    (hnext : ∀ x ∈ a :: xs, x ≠ prev b → next' x = next x) (hprev : ∀ x ∈ xs, prev' x = prev x) :
    Path next' prev' a xs c := by
  induction xs generalizing a with
  | nil => exact ⟨hpath.2 ▸ hlast, hback.trans hpath.2⟩
  | cons x xs ih =>
      obtain ⟨hnextA, hprevX, hrest⟩ := hpath
      obtain ⟨hnotMem, hnodup'⟩ := List.nodup_cons.mp hnodup
      have hne : a ≠ prev b := fun heq => hnotMem (heq ▸ hrest.prev_mem)
      refine ⟨?_, ?_, ih hrest hnodup' ?_ ?_⟩
      · rw [hnext a List.mem_cons_self hne, hnextA]
      · rw [hprev x List.mem_cons_self, hprevX]
      · exact fun y hy => hnext y (List.mem_cons_of_mem a hy)
      · exact fun y hy => hprev y (List.mem_cons_of_mem x hy)

variable {head node : α} {xs ys : List α}

theorem isRing_nil : IsRing next prev head [] ↔ next head = head ∧ prev head = head :=
  ⟨fun hring => hring.path, fun hself => ⟨List.nodup_singleton head, hself⟩⟩

theorem IsRing.next_head (hring : IsRing next prev head (node :: xs)) : next head = node :=
  hring.path.1

theorem IsRing.next_head_eq_iff (hring : IsRing next prev head xs) :
    next head = head ↔ xs = [] := by
  cases xs with
  | nil => exact iff_of_true hring.path.1 rfl
  | cons x xs =>
      refine iff_of_false (fun heq => ?_) (List.cons_ne_nil x xs)
      have hnotMem := (List.nodup_cons.mp hring.nodup).1
      rw [hring.next_head] at heq
      exact hnotMem (heq ▸ List.mem_cons_self)

theorem IsRing.prev_head_mem (hring : IsRing next prev head xs) : prev head ∈ head :: xs :=
  hring.path.prev_mem

theorem IsRing.prev_head_of_nil (hring : IsRing next prev head []) : prev head = head :=
  hring.path.2

theorem IsRing.congr (hring : IsRing next prev head xs)
    (hnext : ∀ x ∈ head :: xs, next' x = next x) (hprev : ∀ x ∈ head :: xs, prev' x = prev x) :
    IsRing next' prev' head xs where
  nodup := hring.nodup
  path := hring.path.congr hnext fun x hx => hprev x (by
    rcases List.mem_append.mp hx with hmem | hmem
    · exact List.mem_cons_of_mem head hmem
    · rw [List.mem_singleton.mp hmem]
      exact List.mem_cons_self)

theorem IsRing.insert_last (hring : IsRing next prev head xs) (hnode : node ∉ head :: xs)
    (hlast : next' (prev head) = node) (hnextNode : next' node = head)
    (hprevHead : prev' head = node) (hprevNode : prev' node = prev head)
    (hnext : ∀ x ∈ head :: xs, x ≠ prev head → next' x = next x)
    (hprev : ∀ x ∈ xs, prev' x = prev x) : IsRing next' prev' head (xs ++ [node]) where
  nodup := by
    rw [← List.cons_append]
    refine List.nodup_append.mpr ⟨hring.nodup, List.nodup_singleton node, ?_⟩
    rintro x hx y hy rfl
    exact hnode (List.mem_singleton.mp hy ▸ hx)
  path := path_append.mpr
    ⟨hring.path.retarget hring.nodup hlast hprevNode hnext hprev, hnextNode, hprevHead⟩

theorem IsRing.remove (hring : IsRing next prev head (xs ++ node :: ys))
    (hjoin : next' (prev node) = next node) (hback : prev' (next node) = prev node)
    (hnext : ∀ x ∈ head :: (xs ++ ys), x ≠ prev node → next' x = next x)
    (hprev : ∀ x ∈ head :: (xs ++ ys), x ≠ next node → prev' x = prev x) :
    IsRing next' prev' head (xs ++ ys) := by
  obtain ⟨hbefore, hafter⟩ := path_append.mp hring.path
  have hnodup := hring.nodup
  rw [← List.cons_append] at hnodup
  obtain ⟨hnodupXs, hnodupYs, hdisjoint⟩ := List.nodup_append.mp hnodup
  have hprevNode : prev node ∈ head :: xs := hbefore.prev_mem
  have hsub : ∀ x ∈ head :: xs, x ∈ head :: (xs ++ ys) := by
    intro x hx
    rw [← List.cons_append]
    exact List.mem_append_left ys hx
  refine ⟨?_, ?_⟩
  · rw [← List.cons_append]
    refine List.nodup_append.mpr ⟨hnodupXs, (List.nodup_cons.mp hnodupYs).2, ?_⟩
    exact fun x hx y hy => hdisjoint x hx y (List.mem_cons_of_mem node hy)
  · cases ys with
    | nil =>
        have hhead : next node = head := hafter.1
        rw [List.append_nil]
        refine hbefore.retarget hnodupXs (hjoin.trans hhead) (hhead ▸ hback) ?_ ?_
        · exact fun x hx => hnext x (hsub x hx)
        · intro x hx
          refine hprev x (hsub x (List.mem_cons_of_mem head hx)) ?_
          rw [hhead]
          exact fun heq => (List.nodup_cons.mp hnodupXs).1 (heq ▸ hx)
    | cons y ys =>
        obtain ⟨hnextNode, hprevY, hrest⟩ := hafter
        rw [hnextNode] at hjoin hback hprev
        have hnodupY := (List.nodup_cons.mp hnodupYs).2
        have hyNotMem : y ∉ head :: xs := fun hmem =>
          hdisjoint y hmem y (List.mem_cons_of_mem node List.mem_cons_self) rfl
        refine path_append.mpr ⟨?_, ?_⟩
        · refine hbefore.retarget hnodupXs hjoin hback ?_ ?_
          · exact fun x hx => hnext x (hsub x hx)
          · intro x hx
            have hmem : x ∈ head :: xs := List.mem_cons_of_mem head hx
            exact hprev x (hsub x hmem) fun heq => hyNotMem (heq ▸ hmem)
        · refine hrest.congr ?_ ?_
          · intro x hx
            refine hnext x ?_ ?_
            · exact List.mem_cons_of_mem head (List.mem_append_right xs hx)
            · exact fun heq =>
                hdisjoint (prev node) hprevNode x (List.mem_cons_of_mem node hx) heq.symm
          · intro x hx
            rcases List.mem_append.mp hx with hmem | hmem
            · refine hprev x ?_ ?_
              · exact List.mem_cons_of_mem head
                  (List.mem_append_right xs (List.mem_cons_of_mem y hmem))
              · exact fun heq => (List.nodup_cons.mp hnodupY).1 (heq ▸ hmem)
            · rw [List.mem_singleton.mp hmem]
              exact hprev head List.mem_cons_self fun heq => hyNotMem (heq ▸ List.mem_cons_self)

/-! ### The cycle -/

theorem Path.back_and_forth {a b x : α} {xs : List α} (hpath : Path next prev a xs b) :
    (x ∈ a :: xs → next x ∈ xs ++ [b] ∧ prev (next x) = x) ∧
      (x ∈ xs ++ [b] → prev x ∈ a :: xs ∧ next (prev x) = x) := by
  induction xs generalizing a with
  | nil =>
      obtain ⟨hnext, hprev⟩ := hpath
      constructor
      · intro hx
        rw [List.mem_singleton.mp hx, hnext, hprev]
        exact ⟨List.mem_singleton_self b, rfl⟩
      · intro hx
        rw [List.mem_singleton.mp hx, hprev, hnext]
        exact ⟨List.mem_singleton_self a, rfl⟩
  | cons y xs ih =>
      obtain ⟨hnext, hprev, hrest⟩ := hpath
      constructor
      · intro hx
        rcases List.mem_cons.mp hx with rfl | hx
        · rw [hnext, hprev]
          exact ⟨List.mem_cons_self, rfl⟩
        · obtain ⟨hmem, hback⟩ := (ih hrest).1 hx
          exact ⟨List.mem_cons_of_mem y hmem, hback⟩
      · intro hx
        rcases List.mem_cons.mp hx with rfl | hx
        · rw [hprev, hnext]
          exact ⟨List.mem_cons_self, rfl⟩
        · obtain ⟨hmem, hback⟩ := (ih hrest).2 hx
          exact ⟨List.mem_cons_of_mem a hmem, hback⟩

/-- The end of a path is reached from each of its nodes, and each node from its start. -/
theorem Path.iterate {a b x : α} {xs : List α} (hpath : Path next prev a xs b)
    (hx : x ∈ a :: xs) : (∃ n, next^[n] a = x) ∧ ∃ n, next^[n] x = b := by
  induction xs generalizing a x with
  | nil =>
      rw [List.mem_singleton.mp hx]
      exact ⟨⟨0, rfl⟩, 1, hpath.1⟩
  | cons y xs ih =>
      obtain ⟨hnext, _, hrest⟩ := hpath
      rcases List.mem_cons.mp hx with rfl | hx
      · obtain ⟨n, hn⟩ := (ih hrest List.mem_cons_self).2
        exact ⟨⟨0, rfl⟩, n + 1, by rw [Function.iterate_succ_apply, hnext, hn]⟩
      · obtain ⟨⟨n, hn⟩, hend⟩ := ih hrest hx
        exact ⟨⟨n + 1, by rw [Function.iterate_succ_apply, hnext, hn]⟩, hend⟩

theorem IsRing.reachable_iff (hring : IsRing next prev head xs) {x : α} :
    (∃ n, next^[n] head = x) ↔ x ∈ head :: xs := by
  constructor
  · rintro ⟨n, rfl⟩
    induction n with
    | zero => exact List.mem_cons_self
    | succ n ih =>
        rw [Function.iterate_succ_apply']
        rcases List.mem_append.mp (hring.path.back_and_forth.1 ih).1 with hmem | hmem
        · exact List.mem_cons_of_mem head hmem
        · rw [List.mem_singleton.mp hmem]
          exact List.mem_cons_self
  · exact fun hx => (hring.path.iterate hx).1

/-- `prev` is the inverse of `next` on the ring, and every node leads back to the head. -/
theorem IsRing.inverse (hring : IsRing next prev head xs) {x : α} (hx : x ∈ head :: xs) :
    prev (next x) = x ∧ next (prev x) = x ∧ ∃ n, next^[n] x = head := by
  refine ⟨(hring.path.back_and_forth.1 hx).2, (hring.path.back_and_forth.2 ?_).2,
    (hring.path.iterate hx).2⟩
  rcases List.mem_cons.mp hx with rfl | hx
  · exact List.mem_append_right xs (List.mem_singleton_self x)
  · exact List.mem_append_left [head] hx

end CodeSlices.Ring
