import CodeSlices.Inspect.Inspector

/-!
# Each table is written once

`inspect` ends on every heap, writes each table at most once and marks the tables that appear more
than once, and what it writes in place of a table it has written refers to its mark.
-/

namespace CodeSlices.Inspect

open References

variable {α : Type} [DecidableEq α]

/-! ### Buffers -/

namespace Piece

/-- A part that neither stands for a written table nor refers to one. -/
def quiet : Piece α → Bool
  | .text _ | .elided _ => true
  | _ => false

def opened : Piece α → Option α
  | .opening a => some a
  | _ => none

/-- A reference stands behind the mark, and a mark right before the table. -/
def Placed (before : List (Piece α)) : Piece α → List (Piece α) → Prop
  | .reference a id, _ => .mark a id ∈ before
  | .mark a _, after => after.head? = some (.opening a)
  | _, _ => True

end Piece

def Placed (buffer : List (Piece α)) : Prop :=
  ∀ before p after, buffer = before ++ p :: after → p.Placed before after

/-- The tables that are written, in their order. -/
def written (buffer : List (Piece α)) : List α := buffer.filterMap Piece.opened

variable {buffer args : List (Piece α)}

omit [DecidableEq α] in
theorem Placed.append (h : Placed buffer)
    (hargs : ∀ before p after, args = before ++ p :: after → p.Placed (buffer ++ before) after) :
    Placed (buffer ++ args) := by
  intro before p after heq
  rcases List.append_eq_append_iff.mp heq with ⟨middle, rfl, hmiddle⟩ | ⟨middle, rfl, hmiddle⟩
  · exact hargs middle p after hmiddle
  · cases middle with
    | nil =>
        have h := hargs [] p after hmiddle.symm
        rw [List.append_nil, List.append_nil] at h
        exact h
    | cons q middle =>
        obtain ⟨rfl, rfl⟩ := List.cons.inj hmiddle
        have hold := h before p middle rfl
        cases p with
        | reference a id => exact hold
        | mark a id =>
            change (middle ++ args).head? = _
            rw [List.head?_append, hold]
            rfl
        | text | opening | elided => trivial

omit [DecidableEq α] in
theorem Placed.mark (h : Placed buffer) (t : α) (id : Nat) :
    Placed (buffer ++ [.mark t id, .opening t]) := by
  refine h.append ?_
  intro before p after heq
  cases before with
  | nil =>
      obtain ⟨rfl, rfl⟩ := List.cons.inj heq
      rfl
  | cons q before =>
      obtain ⟨-, heq⟩ := List.cons.inj heq
      cases before with
      | nil =>
          obtain ⟨rfl, rfl⟩ := List.cons.inj heq
          trivial
      | cons q' before => cases before <;> cases heq

omit [DecidableEq α] in
theorem placed_of_quiet (h : ∀ p ∈ args, p.quiet = true) :
    ∀ before p after, args = before ++ p :: after → p.Placed (buffer ++ before) after := by
  rintro before p after rfl
  have hp := h p (List.mem_append_right before List.mem_cons_self)
  cases p with
  | text | elided => trivial
  | mark | opening | reference => cases hp

omit [DecidableEq α] in
theorem written_append_quiet (h : ∀ p ∈ args, p.quiet = true) :
    written (buffer ++ args) = written buffer := by
  have hnil : args.filterMap Piece.opened = [] := by
    refine List.filterMap_eq_nil_iff.mpr fun p hp => ?_
    have hq := h p hp
    cases p with
    | opening => cases hq
    | text | mark | reference | elided => rfl
  rw [written, List.filterMap_append, hnil, List.append_nil]
  rfl

/-! ### The tables that may be written -/

/-- `KEY` and `METATABLE` are written as names. -/
def Enterable (heap : Heap α) (a : α) : Prop := a ≠ heap.KEY ∧ a ≠ heap.METATABLE

/-- `refs` through the keys in the order in which they are written. -/
theorem coe_refs_eq (heap : Heap α) (sorter : TableSort α) (t : α) :
    (refs heap t : Multiset α) =
      ((sequenceKeys α (getSequenceLength heap t)).map fun k =>
        (tables (rawget heap t k) : Multiset α)).sum +
      (((getNonSequentialKeys heap sorter t).map fun k =>
        (tables k : Multiset α) + (tables (rawget heap t k) : Multiset α)).sum +
      (tables (heap.metatable t) : Multiset α)) := by
  have hnone : ∀ k ∈ sequenceKeys α (getSequenceLength heap t), tables k = [] := by
    intro k hk
    obtain ⟨i, -, -, rfl⟩ := mem_sequenceKeys.mp hk
    rfl
  have hseq : ((sequenceKeys α (getSequenceLength heap t)).map fun k =>
      (tables k : Multiset α) + (tables (rawget heap t k) : Multiset α)) =
      (sequenceKeys α (getSequenceLength heap t)).map fun k =>
        (tables (rawget heap t k) : Multiset α) := by
    refine List.map_congr_left fun k hk => ?_
    rw [hnone k hk, Multiset.coe_nil, zero_add]
  rw [coe_refs, entries_eq, List.map_map, ← add_assoc, ← hseq, ← List.sum_append,
    ← List.map_append]
  exact congrArg (· + (tables (heap.metatable t) : Multiset α))
    ((keys_perm heap sorter t).map _).sum_eq

/-! ### What is kept while a table is written -/

section Keep

variable {env : Env α} {root t : α} {n : Nat} {all entered : Finset α} {pending : Multiset α}
  {s s' : Inspector α}

/-- A table that is marked. -/
def Shared (env : Env α) (a : α) : Prop := ∃ n, env.tableAppearances a = some n ∧ 1 < n

/-- The inspector when the next number has been given to a table. -/
def Inspector.number (s : Inspector α) (t : α) : Inspector α :=
  let id := (s.maxIds .table).getD 0 + 1
  { s with
    ids := Function.update s.ids (.table t) (some id)
    maxIds := Function.update s.maxIds .table (some id) }

theorem ids_number_self :
    (s.number t).ids (.table t) = some ((s.maxIds .table).getD 0 + 1) :=
  Function.update_self _ _ _

theorem ids_number_of_ne {a : α} (ha : a ≠ t) :
    (s.number t).ids (.table a) = s.ids (.table a) :=
  Function.update_of_ne (fun heq => ha (Value.table.inj heq)) _ _

theorem ids_number_iff {a : α} {id : Nat} :
    (s.number t).ids (.table a) = some id ↔
      a = t ∧ id = (s.maxIds .table).getD 0 + 1 ∨ a ≠ t ∧ s.ids (.table a) = some id := by
  by_cases ha : a = t
  · rw [ha, ids_number_self, Option.some.injEq, and_iff_right rfl, eq_comm,
      or_iff_left (fun h => h.1 rfl)]
  · rw [ids_number_of_ne ha, and_iff_right ha, or_iff_right (fun h => ha h.1)]

theorem maxIds_number :
    (s.number t).maxIds .table = some ((s.maxIds .table).getD 0 + 1) :=
  Function.update_self TypeName.table _ s.maxIds

/-- The inspector while some references are still to be written. -/
structure Written (env : Env α) (root : α) (entered : Finset α) (pending : Multiset α)
    (s : Inspector α) : Prop where
  track : Track (refs env.heap) (Enterable env.heap) (env.options.depth = none) root entered pending
  nodup : (written s.buffer).Nodup
  mem_written : ∀ a, a ∈ written s.buffer ↔ a ∈ entered
  isSome_iff : ∀ a, (s.ids (.table a)).isSome ↔ a ∈ entered ∧ Shared env a
  mark_iff : ∀ a id, .mark a id ∈ s.buffer ↔ s.ids (.table a) = some id
  placed : Placed s.buffer
  bound : ∀ a id, s.ids (.table a) = some id → 1 ≤ id ∧ id ≤ (s.maxIds .table).getD 0
  unique : ∀ a b id, s.ids (.table a) = some id → s.ids (.table b) = some id → a = b

namespace Written

/-- What neither writes a table nor refers to one. -/
theorem quiet (args : List (Piece α)) (h : Written env root entered pending s)
    (hargs : ∀ p ∈ args, p.quiet = true) (hbuffer : s'.buffer = s.buffer ++ args)
    (hids : ∀ a, s'.ids (.table a) = s.ids (.table a))
    (hmax : s'.maxIds .table = s.maxIds .table) : Written env root entered pending s' where
  track := h.track
  nodup := by
    rw [hbuffer, written_append_quiet hargs]
    exact h.nodup
  mem_written := by
    rw [hbuffer, written_append_quiet hargs]
    exact h.mem_written
  isSome_iff := fun a => hids a ▸ h.isSome_iff a
  mark_iff := by
    intro a id
    rw [hids, ← h.mark_iff, hbuffer, List.mem_append]
    refine or_iff_left fun hmem => ?_
    cases hargs _ hmem
  placed := by
    rw [hbuffer]
    exact h.placed.append (placed_of_quiet hargs)
  bound := fun a id => hids a ▸ hmax ▸ h.bound a id
  unique := by
    intro a b id
    rw [hids, hids]
    exact h.unique a b id

/-- A table that is not written now, since it may not be or has been before. -/
theorem drop (h : Written env root entered (t ::ₘ pending) s)
    (hdrop : env.options.depth = none → Enterable env.heap t → t ∈ entered) :
    Written env root entered pending s :=
  { h with track := h.track.drop hdrop }

theorem refer (h : Written env root entered pending s) {id : Nat}
    (hid : s.ids (.table t) = some id) :
    Written env root entered pending { s with buffer := s.buffer ++ [.reference t id] } where
  track := h.track
  nodup := by
    rw [written, List.filterMap_append]
    exact (List.append_nil _).symm ▸ h.nodup
  mem_written := by
    intro a
    rw [written, List.filterMap_append]
    exact (List.append_nil _).symm ▸ h.mem_written a
  isSome_iff := h.isSome_iff
  mark_iff := by
    intro a id'
    rw [List.mem_append, List.mem_singleton]
    exact (or_iff_left fun heq => nomatch heq).trans (h.mark_iff a id')
  placed := by
    refine h.placed.append ?_
    intro before p after heq
    cases before with
    | nil =>
        obtain ⟨rfl, rfl⟩ := List.cons.inj heq
        rw [List.append_nil]
        exact (h.mark_iff t id).mpr hid
    | cons q before => cases before <;> cases heq
  bound := h.bound
  unique := h.unique

theorem nodup_append (h : Written env root entered pending s) (hnot : t ∉ entered) :
    (written s.buffer ++ [t]).Nodup := by
  refine List.nodup_append.mpr ⟨h.nodup, List.nodup_singleton t, ?_⟩
  intro a ha b hb hab
  rw [List.mem_singleton.mp hb] at hab
  exact hnot (hab ▸ (h.mem_written a).mp ha)

theorem mem_append (h : Written env root entered pending s) (a : α) :
    a ∈ written s.buffer ++ [t] ↔ a ∈ insert t entered := by
  rw [List.mem_append, List.mem_singleton, h.mem_written, Finset.mem_insert, or_comm]

/-- A table that appears once is written without a mark. -/
theorem enter (h : Written env root entered (t ::ₘ pending) s) (henter : Enterable env.heap t)
    (hnot : t ∉ entered) (hshared : ¬ Shared env t) :
    Written env root (insert t entered) (refs env.heap t + pending)
      { s with buffer := s.buffer ++ [.opening t] } where
  track := h.track.insert henter hnot
  nodup := by
    rw [written, List.filterMap_append]
    exact h.nodup_append hnot
  mem_written := by
    intro a
    rw [written, List.filterMap_append]
    exact h.mem_append a
  isSome_iff := by
    intro a
    rw [h.isSome_iff, Finset.mem_insert]
    constructor
    · exact fun ha => ⟨.inr ha.1, ha.2⟩
    · rintro ⟨rfl | ha, hs⟩
      · exact absurd hs hshared
      · exact ⟨ha, hs⟩
  mark_iff := by
    intro a id
    rw [List.mem_append, List.mem_singleton]
    exact (or_iff_left fun heq => nomatch heq).trans (h.mark_iff a id)
  placed := by
    refine h.placed.append ?_
    intro before p after heq
    cases before with
    | nil =>
        obtain ⟨rfl, rfl⟩ := List.cons.inj heq
        trivial
    | cons q before => cases before <;> cases heq
  bound := h.bound
  unique := h.unique

theorem ids_eq_none (h : Written env root entered pending s) (hnot : t ∉ entered) :
    s.ids (.table t) = none := by
  refine Option.not_isSome_iff_eq_none.mp fun hsome => ?_
  exact hnot ((h.isSome_iff t).mp hsome).1

theorem ids_ne_next (h : Written env root entered pending s) (a : α) :
    s.ids (.table a) ≠ some ((s.maxIds .table).getD 0 + 1) := by
  intro ha
  have hle := (h.bound a _ ha).2
  omega

theorem isSome_number_iff (h : Written env root entered pending s) (hshared : Shared env t)
    (a : α) : ((s.number t).ids (.table a)).isSome ↔ a ∈ insert t entered ∧ Shared env a := by
  rw [Finset.mem_insert]
  by_cases ha : a = t
  · subst ha
    rw [ids_number_self]
    exact iff_of_true rfl ⟨.inl rfl, hshared⟩
  · rw [ids_number_of_ne ha, h.isSome_iff, or_iff_right ha]

/-- The new mark is the only one of its table. -/
theorem mark_number_iff (h : Written env root entered pending s) (hnot : t ∉ entered) (a : α)
    (id : Nat) :
    .mark a id ∈ s.buffer ++ [.mark t ((s.maxIds .table).getD 0 + 1), .opening t] ↔
      (s.number t).ids (.table a) = some id := by
  rw [ids_number_iff, ← h.mark_iff, List.mem_append, List.mem_cons, List.mem_singleton,
    Piece.mark.injEq, or_iff_left (fun heq => nomatch heq : ¬ Piece.mark a id = .opening t)]
  constructor
  · rintro (hmem | heq)
    · refine .inr ⟨?_, hmem⟩
      rintro rfl
      rw [h.mark_iff, h.ids_eq_none hnot] at hmem
      cases hmem
    · exact .inl heq
  · rintro (heq | ⟨-, hmem⟩)
    · exact .inr heq
    · exact .inl hmem

theorem bound_number (h : Written env root entered pending s) (a : α) (id : Nat)
    (ha : (s.number t).ids (.table a) = some id) :
    1 ≤ id ∧ id ≤ ((s.number t).maxIds .table).getD 0 := by
  rw [maxIds_number, Option.getD_some]
  rcases ids_number_iff.mp ha with ⟨-, rfl⟩ | ⟨-, ha⟩
  · exact ⟨Nat.succ_pos _, Nat.le_refl _⟩
  · have hbound := h.bound a id ha
    exact ⟨hbound.1, by omega⟩

theorem unique_number (h : Written env root entered pending s) (a b : α) (id : Nat)
    (ha : (s.number t).ids (.table a) = some id) (hb : (s.number t).ids (.table b) = some id) :
    a = b := by
  rcases ids_number_iff.mp ha with ⟨rfl, rfl⟩ | ⟨-, ha⟩
  · rcases ids_number_iff.mp hb with ⟨hb, -⟩ | ⟨-, hb⟩
    · exact hb.symm
    · exact absurd hb (h.ids_ne_next b)
  · rcases ids_number_iff.mp hb with ⟨-, rfl⟩ | ⟨-, hb⟩
    · exact absurd ha (h.ids_ne_next a)
    · exact h.unique a b id ha hb

/-- A table that appears more than once is marked with the next number. -/
theorem enter_shared (h : Written env root entered (t ::ₘ pending) s)
    (henter : Enterable env.heap t) (hnot : t ∉ entered) (hshared : Shared env t) :
    Written env root (insert t entered) (refs env.heap t + pending)
      { s.number t with
        buffer := s.buffer ++ [.mark t ((s.maxIds .table).getD 0 + 1), .opening t] } where
  track := h.track.insert henter hnot
  nodup := by
    rw [written, List.filterMap_append]
    exact h.nodup_append hnot
  mem_written := by
    intro a
    rw [written, List.filterMap_append]
    exact h.mem_append a
  isSome_iff := h.isSome_number_iff hshared
  mark_iff := h.mark_number_iff hnot
  placed := h.placed.mark t _
  bound := h.bound_number
  unique := h.unique_number

end Written

/-! ### What is written -/

/-- Some tables at least are written. -/
def WrittenFrom (env : Env α) (root : α) (n : Nat) (pending : Multiset α) (s : Inspector α) :
    Prop :=
  ∃ entered : Finset α, n ≤ entered.card ∧ Written env root entered pending s

variable {putValue : Value α → Inspecting α Unit}

theorem WrittenFrom.quiet (args : List (Piece α)) (h : WrittenFrom env root n pending s)
    (hargs : ∀ p ∈ args, p.quiet = true) (hbuffer : s'.buffer = s.buffer ++ args)
    (hids : ∀ a, s'.ids (.table a) = s.ids (.table a)) (hmax : s'.maxIds .table = s.maxIds .table) :
    WrittenFrom env root n pending s' := by
  obtain ⟨entered, hn, h⟩ := h
  exact ⟨entered, hn, h.quiet args hargs hbuffer hids hmax⟩

theorem puts_does (hargs : ∀ p ∈ args, p.quiet = true) :
    Does (WrittenFrom env root n pending) (puts args) () (WrittenFrom env root n pending) :=
  Does.modify fun _ h => h.quiet args hargs rfl (fun _ => rfl) rfl

omit [DecidableEq α] in
theorem quiet_text (str : List UInt8) : ∀ p ∈ [(.text str : Piece α)], p.quiet = true := by
  intro p hp
  rw [List.mem_singleton.mp hp]
  rfl

theorem level_does (f : Nat → Nat) :
    Does (WrittenFrom env root n pending) (modify fun s => { s with level := f s.level }) ()
      (WrittenFrom env root n pending) :=
  Does.modify fun _ h =>
    h.quiet [] (fun _ hp => nomatch hp) (List.append_nil _).symm (fun _ => rfl) rfl

theorem down_does {f : Inspecting α Unit} {pending' : Multiset α}
    (hf : Does (WrittenFrom env root n pending) f () (WrittenFrom env root n pending')) :
    Does (WrittenFrom env root n pending) (down f) () (WrittenFrom env root n pending') :=
  (level_does (· + 1)).bind (hf.bind (level_does (· - 1)))

theorem tabify_does :
    Does (WrittenFrom env root n pending) (tabify env) () (WrittenFrom env root n pending) := by
  refine Does.get_bind fun s _ => puts_does ?_
  intro p hp
  rcases List.mem_cons.mp hp with rfl | hp
  · rfl
  · exact quiet_text _ p hp

theorem putComma_does (count : Nat) :
    Does (WrittenFrom env root n pending) (putComma count) () (WrittenFrom env root n pending) := by
  rw [putComma]
  split
  · exact puts_does (quiet_text _)
  · exact Does.pure ()

/-- A number for a value that is no table. -/
theorem getId_gives {v : Value α} (hv : ∀ a, v ≠ .table a) (hty : type v ≠ .table) :
    Gives (WrittenFrom env root n pending) (getId v) fun _ => WrittenFrom env root n pending := by
  refine Gives.modifyGet fun s h => ?_
  cases s.ids v with
  | some id => exact h
  | none =>
      refine h.quiet [] (fun _ hp => nomatch hp) (List.append_nil _).symm ?_ ?_
      · exact fun a => Function.update_of_ne (Ne.symm (hv a)) _ _
      · exact Function.update_of_ne (Ne.symm hty) _ _

section Contents

variable (hput : ∀ (v : Value α) (pending : Multiset α),
  Does (WrittenFrom env root n (tables v + pending)) (putValue v) ()
    (WrittenFrom env root n pending))
include hput

theorem putKey_does (k : Value α) (pending : Multiset α) :
    Does (WrittenFrom env root n (tables k + pending)) (putKey putValue k) ()
      (WrittenFrom env root n pending) := by
  unfold putKey
  split
  · change Does (WrittenFrom env root n (0 + pending)) _ _ _
    rw [zero_add]
    exact puts_does (quiet_text _)
  · exact (puts_does (quiet_text _)).bind ((hput _ pending).bind (puts_does (quiet_text _)))

theorem putItem_does (t : α) (count : Nat) (i : Value α) (pending : Multiset α) :
    Does (WrittenFrom env root n (tables (rawget env.heap t i) + pending))
      (putItem env putValue t count i) (count + 1) (WrittenFrom env root n pending) :=
  (putComma_does count).bind <| (puts_does (quiet_text _)).bind <|
    (hput _ pending).bind (Does.pure _)

theorem putEntry_does (t : α) (count : Nat) (k : Value α) (pending : Multiset α) :
    Does (WrittenFrom env root n (tables k + tables (rawget env.heap t k) + pending))
      (putEntry env putValue t count k) (count + 1) (WrittenFrom env root n pending) := by
  rw [add_assoc]
  exact (putComma_does count).bind <| tabify_does.bind <| (putKey_does hput k _).bind <|
    (puts_does (quiet_text _)).bind <| (hput _ pending).bind (Does.pure _)

theorem putMetatable_does (count : Nat) (mt : Value α) (pending : Multiset α) :
    Does (WrittenFrom env root n (tables mt + pending)) (putMetatable env putValue count mt) ()
      (WrittenFrom env root n pending) := by
  cases mt with
  | table mt =>
      exact (putComma_does count).bind <| tabify_does.bind <|
        (puts_does (quiet_text _)).bind <| hput (.table mt) pending
  | nil | boolean | number | string | other =>
      change Does (WrittenFrom env root n (0 + pending)) _ _ _
      rw [zero_add]
      exact Does.pure ()

/-- The contents of a table take all that it refers to. -/
theorem putContents_does (t : α) (pending : Multiset α) :
    Does (WrittenFrom env root n (refs env.heap t + pending)) (putContents env putValue t) ()
      (WrittenFrom env root n pending) := by
  rw [coe_refs_eq env.heap env.sorter, add_assoc, add_assoc]
  refine Does.bind (Does.foldlM ?_ _ 0 _) (Does.bind (Does.foldlM ?_ _ _ _) ?_)
  · exact fun count i p => putItem_does hput t count i p
  · exact fun count k p => putEntry_does hput t count k p
  · exact putMetatable_does hput _ (env.heap.metatable t) pending

end Contents

theorem putClosing_does (t : α) :
    Does (WrittenFrom env root n pending) (putClosing env t) ()
      (WrittenFrom env root n pending) := by
  rw [putClosing]
  split
  · exact tabify_does.bind (puts_does (quiet_text _))
  · split
    · exact (puts_does (quiet_text _)).bind (puts_does (quiet_text _))
    · exact puts_does (quiet_text _)

section Counts

variable (hall : ∀ a, a ∈ all ↔ Reach (refs env.heap) (fun _ => True) root a)
  (hcount : ∀ a, env.tableAppearances a = if a ∈ all then
    some ((if a = root then 1 else 0) + mentions (refs env.heap) all a) else none)
include hall

theorem Written.mem_all (h : Written env root entered pending s) {a : α}
    (ha : a ∈ entered ∨ a ∈ pending) : a ∈ all := by
  rw [hall]
  refine Relation.ReflTransGen.mono ?_ root a (h.track.reach a ha)
  exact fun _ _ hstep => ⟨trivial, hstep.2⟩

include hcount

/-- A table that comes up again has been marked. -/
theorem Written.shared (h : Written env root entered (t ::ₘ pending) s) (ht : t ∈ entered) :
    Shared env t := by
  have hsub : entered ⊆ all := fun a ha => h.mem_all hall (.inl ha)
  have htwo := h.track.two_le ht
  have hmono : mentions (refs env.heap) entered t ≤ mentions (refs env.heap) all t :=
    mentions_mono hsub t
  refine ⟨_, (hcount t).trans (if_pos (hsub ht)), ?_⟩
  omega

/-- The mark of a table that is not written yet, where it has one. -/
theorem putMark_does (h : Written env root entered (t ::ₘ pending) s)
    (henter : Enterable env.heap t) (hnot : t ∉ entered) (hids : s.ids (.table t) = none) :
    ∃ s₁, Does (fun s' => s' = s) (putMark env t) () (fun s' => s' = s₁) ∧
      Written env root (insert t entered) (refs env.heap t + pending)
        { s₁ with buffer := s₁.buffer ++ [.opening t] } := by
  have hmem : t ∈ all := h.mem_all hall (.inr (Multiset.mem_cons_self t pending))
  have hget := (hcount t).trans (if_pos hmem)
  rw [putMark, hget]
  by_cases hone : 1 < (if t = root then 1 else 0) + mentions (refs env.heap) all t
  · simp only [if_pos hone]
    have hopen := h.enter_shared henter hnot ⟨_, hget, hone⟩
    rw [List.append_cons] at hopen
    refine ⟨{ s.number t with buffer := s.buffer ++ [.mark t ((s.maxIds .table).getD 0 + 1)] }, ?_,
      hopen⟩
    refine Does.bind (a := (s.maxIds .table).getD 0 + 1) (Q := fun s' => s' = s.number t)
      (Does.modifyGet ?_) (Does.modify ?_)
    · rintro s' rfl
      rw [hids]
      exact ⟨rfl, rfl⟩
    · rintro s' rfl
      rfl
  · simp only [if_neg hone]
    refine ⟨s, Does.pure (), h.enter henter hnot ?_⟩
    rintro ⟨count, heq, hlt⟩
    exact hone (Option.some.inj (hget.symm.trans heq) ▸ hlt)

/-- A table is written, or what stands in its place. -/
theorem putTable_does (t : α) (pending : Multiset α)
    (hput : ∀ (v : Value α) (pending : Multiset α),
      Does (WrittenFrom env root (n + 1) (tables v + pending)) (putValue v) ()
        (WrittenFrom env root (n + 1) pending)) :
    Does (WrittenFrom env root n (t ::ₘ pending)) (putTable env putValue t) ()
      (WrittenFrom env root n pending) := by
  refine Does.read fun s h => ?_
  obtain ⟨entered, hn, h⟩ := h
  by_cases hname : t = env.heap.KEY ∨ t = env.heap.METATABLE
  · rw [if_pos hname]
    refine (puts_does (quiet_text _)).pre ?_
    rintro s' rfl
    refine ⟨entered, hn, h.drop fun _ henter => ?_⟩
    exact absurd hname (not_or.mpr henter)
  rw [if_neg hname]
  cases hids : s.ids (.table t) with
  | some id =>
      have hmem : t ∈ entered := ((h.isSome_iff t).mp (by rw [hids]; rfl)).1
      rw [if_pos (by rfl)]
      refine Does.bind (a := id) (Q := fun s' => s' = s) (Does.modifyGet ?_) (Does.modify ?_)
      · rintro s' rfl
        rw [hids]
        exact ⟨rfl, rfl⟩
      · rintro s' rfl
        exact ⟨entered, hn, (h.drop fun _ _ => hmem).refer hids⟩
  | none =>
      rw [if_neg (show ¬ (none : Option Nat).isSome = true from Bool.false_ne_true)]
      split
      · rename_i hdepth
        refine Does.modify ?_
        rintro s' rfl
        refine ⟨entered, hn, (h.drop fun hfull => ?_).quiet [.elided t] ?_ rfl
          (fun _ => rfl) rfl⟩
        · rw [hfull] at hdepth
          cases hdepth
        · intro p hp
          rw [List.mem_singleton.mp hp]
          rfl
      · have hnot : t ∉ entered := by
          intro hmem
          have hsome := (h.isSome_iff t).mpr ⟨hmem, h.shared hall hcount hmem⟩
          rw [hids] at hsome
          cases hsome
        obtain ⟨s₁, hmark, hopen⟩ := putMark_does hall hcount h (not_or.mp hname) hnot hids
        have hcard : n + 1 ≤ (insert t entered).card := by
          rw [Finset.card_insert_of_notMem hnot]
          exact Nat.succ_le_succ hn
        refine hmark.bind <| Does.bind (a := ())
          (Q := WrittenFrom env root (n + 1) (refs env.heap t + pending)) (Does.modify ?_) <|
          (down_does (putContents_does hput t pending)).bind <| (putClosing_does t).post ?_
        · rintro s' rfl
          exact ⟨_, hcard, hopen⟩
        · rintro s' ⟨entered', hle, h'⟩
          exact ⟨entered', (Nat.le_succ n).trans hle, h'⟩

theorem putValue_does [Fintype α] (fuel n : Nat) (hfuel : Fintype.card α < fuel + n) (v : Value α)
    (pending : Multiset α) :
    Does (WrittenFrom env root n (tables v + pending)) (Inspect.putValue env fuel v) ()
      (WrittenFrom env root n pending) := by
  induction fuel generalizing n v pending with
  | zero =>
      rintro s ⟨entered, hn, -⟩
      have hcard := Finset.card_le_univ entered
      omega
  | succ fuel ih =>
      cases v with
      | table t => exact putTable_does hall hcount t pending (ih (n + 1) (by omega))
      | string str =>
          change Does (WrittenFrom env root n (0 + pending)) _ _ _
          rw [zero_add, Inspect.putValue]
          split
          · exact puts_does (quiet_text _)
          · exact puts_does (quiet_text _)
      | nil | boolean | number =>
          change Does (WrittenFrom env root n (0 + pending)) _ _ _
          rw [zero_add]
          exact puts_does (quiet_text _)
      | other kind id =>
          change Does (WrittenFrom env root n (0 + pending)) _ _ _
          rw [zero_add]
          have hid : Does (WrittenFrom env root n pending)
              (getId (.other kind id) >>= fun id => puts [.text (bytes "<"),
                .text (TypeName.kind kind).name, .text (bytes " "),
                .text (env.tostring (.number id)), .text (bytes ">")]) ()
              (WrittenFrom env root n pending) := by
            refine Gives.does <| Gives.bind (getId_gives (fun a heq => nomatch heq)
              (fun heq => nomatch heq)) fun id => Gives.of_does (puts_does ?_) fun _ h => h
            intro p hp
            simp only [List.mem_cons, List.not_mem_nil, or_false] at hp
            rcases hp with rfl | rfl | rfl | rfl | rfl <;> rfl
          cases kind with
          | function | userdata | thread => exact hid
          | cdata | ctype => exact puts_does (quiet_text _)

end Counts

end Keep

/-! ### Runs of `inspect` -/

section Runs

variable [Fintype α] (heap : Heap α) (sorter : TableSort α) (tostring : Value α → List UInt8)
  (options : Options) (root : α) (more : Nat)

/-- What a run of `inspect` leaves behind. -/
theorem inspect_does :
    ∃ tableAppearances : α → Option Nat, ∃ all entered : Finset α, ∃ s : Inspector α,
      (∀ a, a ∈ all ↔ Reach (refs heap) (fun _ => True) root a) ∧
      (∀ a, tableAppearances a = if a ∈ all then
        some ((if a = root then 1 else 0) + mentions (refs heap) all a) else none) ∧
      inspect heap sorter tostring options (Fintype.card α + 1 + more) (.table root) =
        some s.buffer ∧
      Written ⟨heap, sorter, tostring, options, tableAppearances⟩ root entered 0 s := by
  obtain ⟨counts, all, hrun, hcounted⟩ := exists_counted heap root more
  have hstart : WrittenFrom ⟨heap, sorter, tostring, options, counts⟩ root 0
      (([root] : List α) + 0) {} := by
    refine ⟨∅, le_rfl, ?_, List.nodup_nil, ?_, ?_, ?_, ?_, ?_, ?_⟩
    · rw [add_zero]
      exact Track.init _ _ _ root
    · exact fun a => iff_of_false List.not_mem_nil (Finset.notMem_empty a)
    · exact fun a => iff_of_false Bool.false_ne_true fun h => Finset.notMem_empty a h.1
    · exact fun a id => iff_of_false List.not_mem_nil fun h => nomatch h
    · intro before p after heq
      exact absurd heq.symm (List.append_ne_nil_of_right_ne_nil before (List.cons_ne_nil p after))
    · exact fun a id h => nomatch h
    · exact fun a b id h => nomatch h
  have hput : Does (WrittenFrom ⟨heap, sorter, tostring, options, counts⟩ root 0
      (([root] : List α) + 0))
      (putValue ⟨heap, sorter, tostring, options, counts⟩ (Fintype.card α + 1 + more) (.table root))
      () (WrittenFrom ⟨heap, sorter, tostring, options, counts⟩ root 0 0) :=
    putValue_does hcounted.mem_iff hcounted.eq (Fintype.card α + 1 + more) 0 (by omega)
      (.table root) 0
  obtain ⟨s, hwrite, entered, -, h⟩ := hput _ hstart
  refine ⟨counts, all, entered, s, hcounted.mem_iff, hcounted.eq, ?_, h⟩
  rw [inspect, hrun]
  simp only [Option.bind_eq_bind, Option.bind_some, hwrite]
  rfl

/-- `inspect` ends, writes no table twice, and each reference has one mark, which stands before. -/
theorem inspect_once :
    ∃ buffer, inspect heap sorter tostring options (Fintype.card α + 1 + more) (.table root) =
        some buffer ∧
      (written buffer).Nodup ∧
      (∀ a ∈ written buffer, Enterable heap a ∧ Reach (refs heap) (Enterable heap) root a) ∧
      Placed buffer ∧
      ∀ a b id id', .mark a id ∈ buffer → .mark b id' ∈ buffer → (a = b ↔ id = id') := by
  obtain ⟨_, _, entered, s, -, -, hrun, h⟩ :=
    inspect_does heap sorter tostring options root more
  refine ⟨s.buffer, hrun, h.nodup, ?_, h.placed, ?_⟩
  · intro a ha
    have hmem := (h.mem_written a).mp ha
    exact ⟨h.track.enters a hmem, h.track.reach a (.inl hmem)⟩
  · intro a b id id' ha hb
    rw [h.mark_iff] at ha hb
    constructor
    · rintro rfl
      exact Option.some.inj (ha.symm.trans hb)
    · rintro rfl
      exact h.unique a b id ha hb

/-- Without a limit on the depth `inspect` writes all tables the root leads to, and marks those to
which there are more references than one. -/
theorem inspect_all :
    ∃ buffer, inspect heap sorter tostring { options with depth := none }
        (Fintype.card α + 1 + more) (.table root) = some buffer ∧
      (∀ a, a ∈ written buffer ↔ Enterable heap a ∧ Reach (refs heap) (Enterable heap) root a) ∧
      ∃ all : Finset α, (∀ a, a ∈ all ↔ Reach (refs heap) (fun _ => True) root a) ∧
        ∀ a, (∃ id, .mark a id ∈ buffer) ↔
          a ∈ written buffer ∧ 1 < (if a = root then 1 else 0) + mentions (refs heap) all a := by
  obtain ⟨tableAppearances, all, entered, s, hall, hcount, hrun, h⟩ :=
    inspect_does heap sorter tostring { options with depth := none } root more
  refine ⟨s.buffer, hrun, fun a => (h.mem_written a).trans (h.track.mem_iff rfl a), all, hall, ?_⟩
  intro a
  have hexists : (∃ id, .mark a id ∈ s.buffer) ↔ (s.ids (.table a)).isSome := by
    rw [Option.isSome_iff_exists]
    exact exists_congr fun id => h.mark_iff a id
  rw [hexists, h.isSome_iff, h.mem_written]
  refine and_congr_right fun hmem => ?_
  have hget := (hcount a).trans (if_pos (h.mem_all hall (.inl hmem)))
  constructor
  · rintro ⟨n, heq, hlt⟩
    exact Option.some.inj (hget.symm.trans heq) ▸ hlt
  · exact fun hlt => ⟨_, hget, hlt⟩

end Runs

end CodeSlices.Inspect
