import Mathlib.Data.Finset.Card
import Mathlib.Data.Finset.Union
import Mathlib.Data.Fintype.Basic
import CodeSlices.Inspect.Value
import CodeSlices.Lib.Does

/-!
# Processed copies

`processRecursive` of `lua/inspect.lua`: a copy of a value and of all that is in it, where each item
is replaced by what a function gives for it. The function gives values of the heap only, and changes
nothing.
-/

namespace CodeSlices.Inspect

/-- A table that is being made. -/
structure Copy where
  entries : List (Value ℕ × Value ℕ)
  metatable : Value ℕ
  keys_nodup : (entries.map Prod.fst).Nodup
  value_ne_nil : ∀ e ∈ entries, e.2 ≠ .nil

namespace Copy

def empty : Copy where
  entries := []
  metatable := .nil
  keys_nodup := List.nodup_nil
  value_ne_nil := fun _ he => absurd he List.not_mem_nil

def others (copy : Copy) (k : Value ℕ) : List (Value ℕ × Value ℕ) :=
  copy.entries.filter fun e => e.1 ≠ k

theorem nodup_others (copy : Copy) (k : Value ℕ) : ((copy.others k).map Prod.fst).Nodup :=
  (List.filter_sublist.map Prod.fst).nodup copy.keys_nodup

/-- `copy[k] = v` in a table without a metatable; `nil` takes the entry away. -/
def rawset (copy : Copy) (k v : Value ℕ) : Copy where
  entries := if v = .nil then copy.others k else copy.others k ++ [(k, v)]
  metatable := copy.metatable
  keys_nodup := by
    split
    · exact copy.nodup_others k
    · rw [List.map_append, List.nodup_append]
      refine ⟨copy.nodup_others k, List.nodup_singleton k, ?_⟩
      intro a ha b hb
      obtain ⟨e, he, rfl⟩ := List.mem_map.mp ha
      rw [List.mem_singleton.mp hb]
      exact of_decide_eq_true (List.mem_filter.mp he).2
  value_ne_nil := by
    have hothers : ∀ e ∈ copy.others k, e.2 ≠ .nil :=
      fun e he => copy.value_ne_nil e (List.mem_of_mem_filter he)
    split
    · exact hothers
    · rename_i hv
      intro e he
      rcases List.mem_append.mp he with he | he
      · exact hothers e he
      · rw [List.mem_singleton.mp he]
        exact hv

def setmetatable (copy : Copy) (mt : Value ℕ) : Copy := { copy with metatable := mt }

end Copy

/-- The value of an item that is no table. -/
def Value.plain {α β : Type} : Value α → Value β
  | .nil | .table _ => .nil
  | .boolean b => .boolean b
  | .number n => .number n
  | .string str => .string str
  | .other kind id => .other kind id

/-- `if type(mt) ~= 'table' then mt = nil end`. -/
def onlyTable : Value ℕ → Value ℕ
  | .table c => .table c
  | _ => .nil

/-- `visited`, and the tables that were made, by their addresses. -/
structure Processing (α : Type) where
  visited : Value α → Option ℕ := fun _ => none
  copies : ℕ → Copy := fun _ => .empty
  made : ℕ := 0

abbrev Processor (α : Type) := StateT (Processing α) Option

/-- Keys on the way to an item, with tables of the caller and tables that were made. -/
abbrev Path (α : Type) := List (Value (α ⊕ ℕ))

def makePath {α : Type} (path keys : Path α) : Path α := path ++ keys

section Program

variable {α : Type} [DecidableEq α]

def Processing.enter (s : Processing α) (item : Value α) : Processing α where
  visited := Function.update s.visited item (some s.made)
  copies := Function.update s.copies s.made .empty
  made := s.made + 1

omit [DecidableEq α] in
def Processing.update (s : Processing α) (c : ℕ) (change : Copy → Copy) : Processing α :=
  { s with copies := Function.update s.copies c (change (s.copies c)) }

theorem Processing.enter_visited (s : Processing α) (item v : Value α) :
    (s.enter item).visited v = if v = item then some s.made else s.visited v :=
  Function.update_apply _ _ _ _

omit [DecidableEq α] in
theorem Processing.update_copies (s : Processing α) (c : ℕ) (change : Copy → Copy) :
    (s.update c change).copies c = change (s.copies c) :=
  Function.update_self _ _ _

variable (heap : Heap α) (process : Value α → Path α → Value α)

def keyPath (path : Path α) (k : Value α) : Path α :=
  makePath path [k.map Sum.inl, .table (.inl heap.KEY)]

omit [DecidableEq α] in
def valuePath (path : Path α) (processedKey : Value ℕ) : Path α :=
  makePath path [processedKey.map Sum.inr]

def metatablePath (path : Path α) : Path α := makePath path [.table (.inl heap.METATABLE)]

/-- A pass of the loop over the entries. -/
def processEntry (recurse : Value α → Path α → Processor α (Value ℕ)) (path : Path α) (c : ℕ)
    (e : Value α × Value α) : Processor α Unit := do
  let processedKey ← recurse e.1 (keyPath heap path e.1)
  if processedKey ≠ .nil then do
    let v ← recurse e.2 (valuePath path processedKey)
    modify fun s => s.update c fun copy => copy.rawset processedKey v
  else pure ()

def processRecursive : ℕ → Value α → Path α → Processor α (Value ℕ)
  | 0, _, _ => failure
  | fuel + 1, item, path => do
      if item = .nil then pure .nil
      else
        let s ← get
        match s.visited item with
        | some c => pure (.table c)
        | none =>
            match process item path with
            | .table t => do
                let c := s.made
                modify fun s => s.enter item
                (heap.entries t).forM (processEntry heap (processRecursive fuel) path c)
                let mt ← processRecursive fuel (heap.metatable t) (metatablePath heap path)
                modify fun s => s.update c fun copy => copy.setmetatable (onlyTable mt)
                pure (.table c)
            | processed => pure processed.plain

end Program

/-! ### What an item becomes -/

variable {α : Type} {heap : Heap α} {process : Value α → Path α → Value α} {root : Value α}
  {visited visited' : Value α → Option ℕ} {path : Path α} {item v : Value α} {w : Value ℕ}
  {s s' s'' : Processing α} {c : ℕ} {U : Finset (Value α)}

/-- What an item on a path may stand for, where some items have copies. -/
inductive Image (process : Value α → Path α → Value α) (visited : Value α → Option ℕ)
    (path : Path α) : Value α → Value ℕ → Prop
  | nil : Image process visited path .nil .nil
  | copy {v : Value α} {c : ℕ} (hv : v ≠ .nil) (hc : visited v = some c) :
      Image process visited path v (.table c)
  | plain {v : Value α} (hv : v ≠ .nil) (h : ∀ t, process v path ≠ .table t) :
      Image process visited path v (process v path).plain

/-- An item and the path that leads from the root to it, through the tables that the items on the
way are processed to. A value whose key becomes nothing is left out. -/
inductive Occurs (heap : Heap α) (process : Value α → Path α → Value α) (root : Value α)
    (visited : Value α → Option ℕ) : Value α → Path α → Prop
  | root : Occurs heap process root visited root []
  | key {item : Value α} {path : Path α} {t : α} {e : Value α × Value α}
      (hitem : Occurs heap process root visited item path) (hnil : item ≠ .nil)
      (ht : process item path = .table t) (he : e ∈ heap.entries t) :
      Occurs heap process root visited e.1 (keyPath heap path e.1)
  | value {item : Value α} {path : Path α} {t : α} {e : Value α × Value α} {processedKey : Value ℕ}
      (hitem : Occurs heap process root visited item path) (hnil : item ≠ .nil)
      (ht : process item path = .table t) (he : e ∈ heap.entries t)
      (hkey : Image process visited (keyPath heap path e.1) e.1 processedKey)
      (hne : processedKey ≠ .nil) :
      Occurs heap process root visited e.2 (valuePath path processedKey)
  | metatable {item : Value α} {path : Path α} {t : α}
      (hitem : Occurs heap process root visited item path) (hnil : item ≠ .nil)
      (ht : process item path = .table t) :
      Occurs heap process root visited (heap.metatable t) (metatablePath heap path)

/-- What an entry becomes; without a key there is no value. -/
structure EntryImage (heap : Heap α) (process : Value α → Path α → Value α)
    (visited : Value α → Option ℕ) (path : Path α) (e : Value α × Value α)
    (image : Value ℕ × Value ℕ) : Prop where
  key : Image process visited (keyPath heap path e.1) e.1 image.1
  value : image.1 ≠ .nil → Image process visited (valuePath path image.1) e.2 image.2

def Copy.store (copy : Copy) (image : Value ℕ × Value ℕ) : Copy :=
  if image.1 ≠ .nil then copy.rawset image.1 image.2 else copy

/-- The copy of an item holds what the entries of its table have become. -/
structure IsCopy (heap : Heap α) (process : Value α → Path α → Value α) (root : Value α)
    (s : Processing α) (item : Value α) (c : ℕ) (path : Path α) (t : α)
    (images : List (Value ℕ × Value ℕ)) (mt : Value ℕ) : Prop where
  occurs : Occurs heap process root s.visited item path
  ne_nil : item ≠ .nil
  table : process item path = .table t
  entries : List.Forall₂ (EntryImage heap process s.visited path) (heap.entries t) images
  metatable : Image process s.visited (metatablePath heap path) (heap.metatable t) mt
  copy : s.copies c = (images.foldl Copy.store .empty).setmetatable (onlyTable mt)

section Mono

variable (hle : ∀ v c, visited v = some c → visited' v = some c)
include hle

theorem Image.mono (h : Image process visited path v w) : Image process visited' path v w := by
  cases h with
  | nil => exact .nil
  | copy hv hc => exact .copy hv (hle _ _ hc)
  | plain hv h => exact .plain hv h

theorem Occurs.mono (h : Occurs heap process root visited v path) :
    Occurs heap process root visited' v path := by
  induction h with
  | root => exact .root
  | key _ hnil ht he ih => exact .key ih hnil ht he
  | value _ hnil ht he hkey hne ih => exact .value ih hnil ht he (hkey.mono hle) hne
  | metatable _ hnil ht ih => exact .metatable ih hnil ht

theorem EntryImage.mono {e : Value α × Value α} {image : Value ℕ × Value ℕ}
    (h : EntryImage heap process visited path e image) :
    EntryImage heap process visited' path e image :=
  ⟨h.key.mono hle, fun hne => (h.value hne).mono hle⟩

end Mono

theorem IsCopy.mono {t : α} {images : List (Value ℕ × Value ℕ)} {mt : Value ℕ}
    (h : IsCopy heap process root s item c path t images mt)
    (hle : ∀ v c, s.visited v = some c → s'.visited v = some c) (hcopy : s'.copies c = s.copies c) :
    IsCopy heap process root s' item c path t images mt where
  occurs := h.occurs.mono hle
  ne_nil := h.ne_nil
  table := h.table
  entries := h.entries.imp fun _ _ himage => himage.mono hle
  metatable := h.metatable.mono hle
  copy := hcopy.trans h.copy

/-! ### What a call does -/

/-- The copies are numbered, one for each item that was visited. -/
structure Valid (U : Finset (Value α)) (s : Processing α) : Prop where
  lt : ∀ v c, s.visited v = some c → c < s.made
  onto : ∀ c < s.made, ∃ v ∈ U, s.visited v = some c
  injective : ∀ v v' c, s.visited v = some c → s.visited v' = some c → v = v'

/-- The items visited on the way from one state to another are copied, and the copies that were
there are kept, the own ones apart. -/
structure Grown (heap : Heap α) (process : Value α → Path α → Value α) (root : Value α)
    (own : ℕ → Prop) (s s' : Processing α) : Prop where
  visited : ∀ v c, s.visited v = some c → s'.visited v = some c
  made : s.made ≤ s'.made
  kept : ∀ c < s.made, ¬ own c → s'.copies c = s.copies c
  copied : ∀ v c, s.visited v = none → s'.visited v = some c →
    s.made ≤ c ∧ ∃ path t images mt, IsCopy heap process root s' v c path t images mt

namespace Grown

variable {own : ℕ → Prop}

theorem refl (own : ℕ → Prop) (s : Processing α) : Grown heap process root own s s where
  visited := fun _ _ h => h
  made := le_rfl
  kept := fun _ _ _ => rfl
  copied := by
    intro v c hnone hsome
    rw [hnone] at hsome
    cases hsome

theorem mono (h : Grown heap process root (fun _ => False) s s') :
    Grown heap process root own s s' where
  visited := h.visited
  made := h.made
  kept := fun c hc _ => h.kept c hc id
  copied := h.copied

theorem trans (h : Grown heap process root own s s') (h' : Grown heap process root own s' s'')
    (hvalid : Valid U s') (hown : ∀ c, own c → c < s.made) :
    Grown heap process root own s s'' where
  visited := fun v c hc => h'.visited v c (h.visited v c hc)
  made := h.made.trans h'.made
  kept := by
    intro c hc hnot
    rw [h'.kept c (hc.trans_le h.made) hnot, h.kept c hc hnot]
  copied := by
    intro v c hnone hsome
    cases hmid : s'.visited v with
    | none =>
        obtain ⟨hle, hcopy⟩ := h'.copied v c hmid hsome
        exact ⟨h.made.trans hle, hcopy⟩
    | some d =>
        have heq : c = d := Option.some.inj (hsome.symm.trans (h'.visited v d hmid))
        subst heq
        obtain ⟨hle, path, t, images, mt, hcopy⟩ := h.copied v c hnone hmid
        have hnot : ¬ own c := fun hc => absurd (hown c hc) (not_lt.mpr hle)
        have hkept := h'.kept c (hvalid.lt v c hmid) hnot
        exact ⟨hle, path, t, images, mt, hcopy.mono h'.visited hkept⟩

/-- A change of a copy of one's own. -/
theorem update (h : Grown heap process root (fun d => d = c) s s') (hc : c < s.made)
    (change : Copy → Copy) : Grown heap process root (fun d => d = c) s (s'.update c change) where
  visited := h.visited
  made := h.made
  kept := by
    intro d hd hnot
    exact (Function.update_of_ne hnot _ _).trans (h.kept d hd hnot)
  copied := by
    intro v d hnone hsome
    obtain ⟨hle, path, t, images, mt, hcopy⟩ := h.copied v d hnone hsome
    have hne : d ≠ c := (hc.trans_le hle).ne'
    exact ⟨hle, path, t, images, mt, hcopy.mono (fun _ _ h => h) (Function.update_of_ne hne _ _)⟩

end Grown

namespace Valid

theorem made_le (h : Valid U s) : s.made ≤ U.card := by
  have hsurj : Set.SurjOn (fun v => (s.visited v).getD 0) U (Finset.range s.made) := by
    intro c hc
    obtain ⟨v, hv, hvisited⟩ := h.onto c (Finset.mem_range.mp hc)
    exact ⟨v, hv, congrArg (Option.getD · 0) hvisited⟩
  have hcard := Finset.card_le_card_of_surjOn _ hsurj
  rwa [Finset.card_range] at hcard

theorem update (h : Valid U s) (c : ℕ) (change : Copy → Copy) :
    Valid U (s.update c change) where
  lt := h.lt
  onto := h.onto
  injective := h.injective

variable [DecidableEq α]

theorem enter (h : Valid U s) (hitem : item ∈ U) (hnone : s.visited item = none) :
    Valid U (s.enter item) := by
  have hcases : ∀ v c, (s.enter item).visited v = some c →
      v = item ∧ c = s.made ∨ v ≠ item ∧ s.visited v = some c := by
    intro v c hc
    rw [Processing.enter_visited] at hc
    split at hc
    · exact .inl ⟨‹_›, (Option.some.inj hc).symm⟩
    · exact .inr ⟨‹_›, hc⟩
  refine ⟨?_, ?_, ?_⟩
  · intro v c hc
    rcases hcases v c hc with ⟨-, rfl⟩ | ⟨-, hc⟩
    · exact Nat.lt_succ_self _
    · exact (h.lt v c hc).trans (Nat.lt_succ_self _)
  · intro c hc
    rcases Nat.lt_succ_iff_lt_or_eq.mp hc with hc | rfl
    · obtain ⟨v, hv, hvisited⟩ := h.onto c hc
      have hne : v ≠ item := by
        rintro rfl
        exact Option.some_ne_none c (hvisited.symm.trans hnone)
      exact ⟨v, hv, (Function.update_of_ne hne _ _).trans hvisited⟩
    · exact ⟨item, hitem, Function.update_self _ _ _⟩
  · intro v v' c hc hc'
    rcases hcases v c hc with ⟨hv, rfl⟩ | ⟨-, hold⟩ <;>
      rcases hcases v' _ hc' with ⟨hv', heq⟩ | ⟨-, hold'⟩
    · rw [hv, hv']
    · exact absurd (h.lt v' _ hold') (lt_irrefl _)
    · exact absurd (h.lt v _ hold) (heq ▸ lt_irrefl _)
    · exact h.injective v v' c hold hold'

end Valid

/-- What a call on an item does to a state and gives back. -/
def Result (heap : Heap α) (process : Value α → Path α → Value α) (root : Value α)
    (U : Finset (Value α)) (s : Processing α) (path : Path α) (item : Value α) (w : Value ℕ)
    (s' : Processing α) : Prop :=
  Valid U s' ∧ Grown heap process root (fun _ => False) s s' ∧
    Image process s'.visited path item w

/-- A function that does so for all items, where some copies have been made. -/
def Recurses (heap : Heap α) (process : Value α → Path α → Value α) (root : Value α)
    (U : Finset (Value α)) (least : ℕ)
    (recurse : Value α → Path α → Processor α (Value ℕ)) : Prop :=
  ∀ item path s, Occurs heap process root s.visited item path → Valid U s → least ≤ s.made →
    Gives (· = s) (recurse item path) (Result heap process root U s path item)

variable {recurse : Value α → Path α → Processor α (Value ℕ)} {least : ℕ} {t : α}

/-- The state after some entries, with what they have become. -/
def EntriesDone (heap : Heap α) (process : Value α → Path α → Value α) (root : Value α)
    (U : Finset (Value α)) (path : Path α) (c : ℕ) (s : Processing α)
    (es : List (Value α × Value α)) (s' : Processing α) : Prop :=
  Valid U s' ∧ Grown heap process root (fun d => d = c) s s' ∧
    ∃ images, List.Forall₂ (EntryImage heap process s'.visited path) es images ∧
      s'.copies c = images.foldl Copy.store (s.copies c)

section Entries

variable (hrec : Recurses heap process root U least recurse) (hitemNil : item ≠ .nil)
  (ht : process item path = .table t)
include hrec hitemNil ht

theorem gives_processEntry (hitem : Occurs heap process root s.visited item path)
    (hvalid : Valid U s) (hleast : least ≤ s.made) (hc : c < s.made) {e : Value α × Value α}
    (he : e ∈ heap.entries t) :
    Gives (· = s) (processEntry heap recurse path c e)
      fun _ => EntriesDone heap process root U path c s [e] := by
  refine Gives.bind (hrec e.1 _ s (.key hitem hitemNil ht he) hvalid hleast) fun processedKey => ?_
  refine Gives.of_eq fun s₁ h₁ => ?_
  obtain ⟨hvalid₁, hgrown₁, himage₁⟩ := h₁
  by_cases hnil : processedKey = .nil
  · subst hnil
    refine Gives.pure fun s' hs' => ?_
    rw [hs']
    refine ⟨hvalid₁, hgrown₁.mono, [(.nil, .nil)], .cons ⟨himage₁, fun h => absurd rfl h⟩ .nil, ?_⟩
    exact hgrown₁.kept c hc id
  · have hvalue : Occurs heap process root s₁.visited e.2 (valuePath path processedKey) :=
      .value (hitem.mono hgrown₁.visited) hitemNil ht he himage₁ hnil
    rw [if_pos hnil]
    refine Gives.bind (hrec e.2 _ s₁ hvalue hvalid₁ (hleast.trans hgrown₁.made)) fun v => ?_
    refine Gives.of_eq fun s₂ h₂ => ?_
    obtain ⟨hvalid₂, hgrown₂, himage₂⟩ := h₂
    refine Gives.modify fun s' hs' => ?_
    rw [hs']
    have hgrown : Grown heap process root (fun d => d = c) s s₂ :=
      hgrown₁.mono.trans hgrown₂.mono hvalid₁ fun d hd => hd ▸ hc
    have hkept : s₂.copies c = s.copies c :=
      (hgrown₂.kept c (hc.trans_le hgrown₁.made) id).trans (hgrown₁.kept c hc id)
    refine ⟨hvalid₂.update c _, hgrown.update hc _, [(processedKey, v)],
      .cons ⟨himage₁.mono hgrown₂.visited, fun _ => himage₂⟩ .nil, ?_⟩
    rw [Processing.update_copies, hkept, List.foldl_cons, List.foldl_nil, Copy.store, if_pos hnil]

/-- The loop over the entries of a table. -/
theorem gives_processEntries (es : List (Value α × Value α)) (hes : ∀ e ∈ es, e ∈ heap.entries t)
    (hitem : Occurs heap process root s.visited item path) (hvalid : Valid U s)
    (hleast : least ≤ s.made) (hc : c < s.made) :
    Gives (· = s) (es.forM (processEntry heap recurse path c))
      fun _ => EntriesDone heap process root U path c s es := by
  induction es generalizing s with
  | nil =>
      refine Gives.pure fun s' hs' => ?_
      rw [hs']
      exact ⟨hvalid, .refl _ s, [], .nil, rfl⟩
  | cons e es ih =>
      obtain ⟨he, hes⟩ := List.forall_mem_cons.mp hes
      refine Gives.bind (gives_processEntry hrec hitemNil ht hitem hvalid hleast hc he) fun _ => ?_
      refine Gives.of_eq fun s₁ h₁ => ?_
      obtain ⟨hvalid₁, hgrown₁, first, hfirst, hcopy₁⟩ := h₁
      refine (ih hes (hitem.mono hgrown₁.visited) hvalid₁ (hleast.trans hgrown₁.made)
        (hc.trans_le hgrown₁.made)).post fun _ s' h => ?_
      obtain ⟨hvalid', hgrown', rest, hrest, hcopy'⟩ := h
      refine ⟨hvalid', hgrown₁.trans hgrown' hvalid₁ fun d hd => hd ▸ hc, first ++ rest, ?_, ?_⟩
      · exact List.rel_append (hfirst.imp fun _ _ h => h.mono hgrown'.visited) hrest
      · rw [hcopy', hcopy₁, List.foldl_append]

end Entries

/-! ### The whole recursion -/

section Recursion

variable [DecidableEq α]

theorem Processing.visited_le_enter (hnone : s.visited item = none) (v : Value α) (c : ℕ)
    (hc : s.visited v = some c) : (s.enter item).visited v = some c := by
  have hne : v ≠ item := by
    rintro rfl
    exact Option.some_ne_none c (hc.symm.trans hnone)
  rw [enter_visited, if_neg hne]
  exact hc

/-- A table whose copy is done is one more item that is copied. -/
theorem Grown.leave (h : Grown heap process root (fun d => d = s.made) (s.enter item) s')
    (hnone : s.visited item = none) {images : List (Value ℕ × Value ℕ)} {mt : Value ℕ}
    (hcopy : IsCopy heap process root s' item s.made path t images mt) :
    Grown heap process root (fun _ => False) s s' where
  visited := fun v c hc => h.visited v c (Processing.visited_le_enter hnone v c hc)
  made := (Nat.le_succ s.made).trans h.made
  kept := by
    intro d hd _
    rw [h.kept d (hd.trans (Nat.lt_succ_self _)) hd.ne]
    exact Function.update_of_ne hd.ne _ _
  copied := by
    intro v d hv hd
    by_cases hitem : v = item
    · subst hitem
      have henter : (s.enter v).visited v = some s.made := Function.update_self _ _ _
      have heq : s.made = d := Option.some.inj ((h.visited v _ henter).symm.trans hd)
      subst heq
      exact ⟨Nat.le_refl _, path, t, images, mt, hcopy⟩
    · have henter : (s.enter item).visited v = none := by
        rw [Processing.enter_visited, if_neg hitem]
        exact hv
      obtain ⟨hle, hcopied⟩ := h.copied v d henter hd
      exact ⟨(Nat.le_succ s.made).trans hle, hcopied⟩

variable (hU : ∀ visited v path, Occurs heap process root visited v path → v ∈ U)
include hU

/-- A table is entered, its entries are processed, and then its metatable. -/
theorem gives_processTable (hrec : Recurses heap process root U (s.made + 1) recurse)
    (hvalid : Valid U s) (hitem : Occurs heap process root s.visited item path)
    (hnil : item ≠ .nil) (hnone : s.visited item = none) (ht : process item path = .table t) :
    Gives (· = s) (do
      modify fun s => s.enter item
      (heap.entries t).forM (processEntry heap recurse path s.made)
      let mt ← recurse (heap.metatable t) (metatablePath heap path)
      modify fun s' => s'.update s.made fun copy => copy.setmetatable (onlyTable mt)
      pure (.table s.made)) (Result heap process root U s path item) := by
  have hvalid₁ := hvalid.enter (hU _ _ _ hitem) hnone
  have hitem₁ := hitem.mono (Processing.visited_le_enter hnone)
  have hlt : s.made < (s.enter item).made := Nat.lt_succ_self _
  have hentries := gives_processEntries hrec hnil ht (heap.entries t) (fun _ he => he) hitem₁
    hvalid₁ (Nat.le_refl _) hlt
  refine Gives.bind (S := fun _ s₁ => s₁ = s.enter item) (Gives.modify fun _ hs => hs ▸ rfl)
    fun _ => Gives.bind hentries fun _ => Gives.of_eq fun s₂ h₂ => ?_
  obtain ⟨hvalid₂, hgrown₂, images, himages, hcopy₂⟩ := h₂
  have hmeta := Occurs.metatable (hitem₁.mono hgrown₂.visited) hnil ht
  refine Gives.bind (hrec _ _ s₂ hmeta hvalid₂ hgrown₂.made) fun mt => Gives.of_eq fun s₃ h₃ => ?_
  obtain ⟨hvalid₃, hgrown₃, himage⟩ := h₃
  refine Gives.bind (S := fun _ s₄ => s₄ = s₃.update s.made fun copy =>
    copy.setmetatable (onlyTable mt)) (Gives.modify fun _ hs => hs ▸ rfl) fun _ =>
      Gives.pure fun s₄ hs₄ => ?_
  rw [hs₄]
  have hgrown : Grown heap process root (fun d => d = s.made) (s.enter item) s₃ :=
    hgrown₂.trans hgrown₃.mono hvalid₂ fun d hd => hd ▸ hlt
  have hvisited : s₃.visited item = some s.made :=
    hgrown.visited item _ (Function.update_self _ _ _)
  have hcopy : IsCopy heap process root (s₃.update s.made fun copy =>
      copy.setmetatable (onlyTable mt)) item s.made path t images mt := by
    refine ⟨hitem₁.mono hgrown.visited, hnil, ht, himages.imp fun _ _ h => h.mono hgrown₃.visited,
      himage, ?_⟩
    have hempty : (s.enter item).copies s.made = .empty := Function.update_self _ _ _
    rw [Processing.update_copies, hgrown₃.kept s.made (hlt.trans_le hgrown₂.made) id, hcopy₂,
      hempty]
  exact ⟨hvalid₃.update _ _, (hgrown.update hlt _).leave hnone hcopy, .copy hnil hvisited⟩

theorem gives_processRecursive (fuel least : ℕ) (hfuel : U.card < fuel + least) :
    Recurses heap process root U least (processRecursive heap process fuel) := by
  induction fuel generalizing least with
  | zero =>
      intro item path s _ hvalid hleast
      have hmade := hvalid.made_le
      omega
  | succ fuel ih =>
      intro item path s hitem hvalid hleast
      rw [processRecursive]
      split
      · rename_i hnil
        refine Gives.pure fun s' hs' => ?_
        rw [hs', hnil]
        exact ⟨hvalid, .refl _ s, .nil⟩
      rename_i hnil
      refine Gives.get_bind fun s' hs' => ?_
      rw [hs']
      cases hvisited : s.visited item with
      | some c =>
          refine Gives.pure fun s' hs' => ?_
          rw [hs']
          exact ⟨hvalid, .refl _ s, .copy hnil hvisited⟩
      | none =>
          have hplain : (∀ t, process item path ≠ .table t) →
              Gives (· = s) (pure (process item path).plain : Processor α (Value ℕ))
                (Result heap process root U s path item) := by
            intro ht
            refine Gives.pure fun s' hs' => ?_
            rw [hs']
            exact ⟨hvalid, .refl _ s, .plain hnil ht⟩
          cases hprocess : process item path with
          | table t =>
              exact gives_processTable hU (ih (s.made + 1) (by omega)) hvalid hitem hnil
                hvisited hprocess
          | nil | boolean | number | string | other =>
              rw [hprocess] at hplain
              exact hplain fun t => by rintro ⟨⟩

end Recursion

/-! ### Finite heaps -/

section Finite

variable [Fintype α] [DecidableEq α]

/-- What is in a table, and its metatable. -/
def contents (heap : Heap α) (t : α) : List (Value α) :=
  (heap.entries t).flatMap (fun e => [e.1, e.2]) ++ [heap.metatable t]

/-- All that may be met in a heap. -/
def items (heap : Heap α) (root : Value α) : Finset (Value α) :=
  insert root (Finset.univ.biUnion fun t => (contents heap t).toFinset)

theorem mem_items_of_contents {t : α} (hv : v ∈ contents heap t) : v ∈ items heap root :=
  Finset.mem_insert_of_mem
    (Finset.mem_biUnion.mpr ⟨t, Finset.mem_univ t, List.mem_toFinset.mpr hv⟩)

theorem Occurs.mem_items (h : Occurs heap process root visited v path) : v ∈ items heap root := by
  cases h with
  | root => exact Finset.mem_insert_self _ _
  | key _ _ _ he =>
      refine mem_items_of_contents (List.mem_append_left _ (List.mem_flatMap.mpr ⟨_, he, ?_⟩))
      exact List.mem_cons_self
  | value _ _ _ he _ _ =>
      refine mem_items_of_contents (List.mem_append_left _ (List.mem_flatMap.mpr ⟨_, he, ?_⟩))
      exact List.mem_cons_of_mem _ List.mem_cons_self
  | metatable _ _ _ =>
      exact mem_items_of_contents (List.mem_append_right _ List.mem_cons_self)

variable (heap) (process) (root)

/-- `processRecursive` ends, and each item that it replaces by a table has one copy of that. -/
theorem processRecursive_copies (more : ℕ) :
    ∃ w s, processRecursive heap process ((items heap root).card + 1 + more) root [] {} =
        some (w, s) ∧
      Image process s.visited [] root w ∧
      (∀ c < s.made, ∃! v, s.visited v = some c) ∧
      ∀ v c, s.visited v = some c → c < s.made ∧
        ∃ path t images mt, IsCopy heap process root s v c path t images mt := by
  have hrec : Recurses heap process root (items heap root) 0
      (processRecursive heap process ((items heap root).card + 1 + more)) :=
    gives_processRecursive (fun _ _ _ h => h.mem_items) _ 0 (by omega)
  have hvalid : Valid (items heap root) ({} : Processing α) :=
    ⟨nofun, fun c hc => absurd hc (Nat.not_lt_zero c), nofun⟩
  obtain ⟨w, s, hrun, hvalid, hgrown, himage⟩ :=
    hrec root [] {} .root hvalid (Nat.zero_le _) {} rfl
  refine ⟨w, s, hrun, himage, fun c hc => ?_, fun v c hc => ⟨hvalid.lt v c hc, ?_⟩⟩
  · obtain ⟨v, -, hv⟩ := hvalid.onto c hc
    exact ⟨v, hv, fun v' hv' => hvalid.injective v' v c hv' hv⟩
  · exact (hgrown.copied v c rfl hc).2

end Finite

/-! ### Functions that do not look at the path -/

section Pathless

variable {f : Value α → Value α} {t : α} {images : List (Value ℕ × Value ℕ)} {mt : Value ℕ}

/-- What an item stands for. -/
def imageOf (f : Value α → Value α) (visited : Value α → Option ℕ) : Value α → Value ℕ
  | .nil => .nil
  | v =>
      match visited v with
      | some c => .table c
      | none => (f v).plain

def storeItem (f : Value α → Value α) (visited : Value α → Option ℕ) (copy : Copy)
    (e : Value α × Value α) : Copy :=
  copy.store (imageOf f visited e.1, imageOf f visited e.2)

/-- The copy of a table. -/
def copyOf (f : Value α → Value α) (visited : Value α → Option ℕ) (heap : Heap α) (t : α) : Copy :=
  ((heap.entries t).foldl (storeItem f visited) .empty).setmetatable
    (onlyTable (imageOf f visited (heap.metatable t)))

theorem imageOf_of_ne_nil (hv : v ≠ .nil) :
    imageOf f visited v = match visited v with
      | some c => .table c
      | none => (f v).plain := by
  cases v with
  | nil => exact absurd rfl hv
  | _ => rfl

section Total

variable (htable : ∀ v c, visited v = some c → ∃ t, f v = .table t)
include htable

theorem Image.eq_imageOf (h : Image (fun v _ => f v) visited path v w) :
    w = imageOf f visited v := by
  cases h with
  | nil => rfl
  | copy hv hc => rw [imageOf_of_ne_nil hv, hc]
  | plain hv h =>
      have hnone : visited v = none := by
        refine Option.eq_none_iff_forall_ne_some.mpr fun c hc => ?_
        obtain ⟨t, ht⟩ := htable v c hc
        exact h t ht
      rw [imageOf_of_ne_nil hv, hnone]

theorem EntryImage.store_eq {e : Value α × Value α} {image : Value ℕ × Value ℕ}
    (h : EntryImage heap (fun v _ => f v) visited path e image) (copy : Copy) :
    copy.store image = storeItem f visited copy e := by
  have hkey := h.key.eq_imageOf htable
  rw [storeItem, Copy.store, Copy.store]
  by_cases hnil : image.1 = .nil
  · rw [if_neg (not_not_intro hnil), if_neg (not_not_intro (hkey.symm.trans hnil))]
  · have hvalue := (h.value hnil).eq_imageOf htable
    rw [if_pos hnil, hkey, hvalue, if_pos (hkey ▸ hnil)]

theorem foldl_store_eq {es : List (Value α × Value α)}
    (h : List.Forall₂ (EntryImage heap (fun v _ => f v) visited path) es images) (copy : Copy) :
    images.foldl Copy.store copy = es.foldl (storeItem f visited) copy := by
  induction h generalizing copy with
  | nil => rfl
  | cons hentry _ ih => rw [List.foldl_cons, List.foldl_cons, hentry.store_eq htable, ih]

end Total

theorem IsCopy.table_eq {t' : α} (h : IsCopy heap (fun v _ => f v) root s v c path t images mt)
    (ht : f v = .table t') : t = t' :=
  Value.table.inj (h.table.symm.trans ht)

theorem IsCopy.exists_image (h : IsCopy heap process root s v c path t images mt)
    {e : Value α × Value α} (he : e ∈ heap.entries t) :
    ∃ image, EntryImage heap process s.visited path e image := by
  obtain ⟨i, hi, rfl⟩ := List.getElem_of_mem he
  have hlt : i < images.length := h.entries.length_eq ▸ hi
  exact ⟨images[i], h.entries.get hi hlt⟩

section Visited

variable (himage : Image (fun v _ => f v) s.visited [] root w)
  (hcopied : ∀ v c, s.visited v = some c →
    ∃ path t images mt, IsCopy heap (fun v _ => f v) root s v c path t images mt)
include hcopied

theorem Image.exists_copy (h : Image (fun v _ => f v) s.visited path v w) (hv : v ≠ .nil)
    (ht : f v = .table t) :
    ∃ c path images mt, IsCopy heap (fun v _ => f v) root s v c path t images mt := by
  cases h with
  | nil => exact absurd rfl hv
  | copy hv hc =>
      obtain ⟨path, t', images, mt, hcopy⟩ := hcopied v _ hc
      obtain rfl := hcopy.table_eq ht
      exact ⟨_, path, images, mt, hcopy⟩
  | plain hv h => exact absurd ht (h t)

include himage

/-- An item that occurs somewhere stands for something. -/
theorem Occurs.exists_image (h : Occurs heap (fun v _ => f v) root s.visited v path) :
    ∃ path w, Image (fun v _ => f v) s.visited path v w := by
  have htable : ∀ v c, s.visited v = some c → ∃ t, f v = .table t := by
    intro v c hc
    obtain ⟨path, t, images, mt, hcopy⟩ := hcopied v c hc
    exact ⟨t, hcopy.table⟩
  induction h with
  | root => exact ⟨[], w, himage⟩
  | key _ hnil ht he ih =>
      obtain ⟨path, w, hitem⟩ := ih
      obtain ⟨c, path, images, mt, hcopy⟩ := hitem.exists_copy hcopied hnil ht
      obtain ⟨image, hentry⟩ := hcopy.exists_image he
      exact ⟨_, _, hentry.key⟩
  | value _ hnil ht he hkey hne ih =>
      obtain ⟨path, w, hitem⟩ := ih
      obtain ⟨c, path, images, mt, hcopy⟩ := hitem.exists_copy hcopied hnil ht
      obtain ⟨image, hentry⟩ := hcopy.exists_image he
      have hsame : image.1 = _ := hentry.key.eq_imageOf htable
      rw [hkey.eq_imageOf htable, ← hsame] at hne
      exact ⟨_, _, hentry.value hne⟩
  | metatable _ hnil ht ih =>
      obtain ⟨path, w, hitem⟩ := ih
      obtain ⟨c, path, images, mt, hcopy⟩ := hitem.exists_copy hcopied hnil ht
      exact ⟨_, _, hcopy.metatable⟩

end Visited

variable [Fintype α] [DecidableEq α] (heap) (f) (root)

/-- A function of the item alone: the items with copies are those that occur and become tables, and
what is in a copy is told by the items of its table. -/
theorem processRecursive_eq (more : ℕ) :
    ∃ s, processRecursive heap (fun v _ => f v) ((items heap root).card + 1 + more) root [] {} =
        some (imageOf f s.visited root, s) ∧
      (∀ c < s.made, ∃! v, s.visited v = some c) ∧
      (∀ v, (∃ c, s.visited v = some c) ↔ v ≠ .nil ∧ (∃ t, f v = .table t) ∧
        ∃ path, Occurs heap (fun v _ => f v) root s.visited v path) ∧
      ∀ v c t, s.visited v = some c → f v = .table t → c < s.made ∧
        s.copies c = copyOf f s.visited heap t := by
  obtain ⟨w, s, hrun, himage, hone, hcopied⟩ :=
    processRecursive_copies heap (fun v _ => f v) root more
  have hcopies := fun v c hc => (hcopied v c hc).2
  have htable : ∀ v c, s.visited v = some c → ∃ t, f v = .table t := by
    intro v c hc
    obtain ⟨path, t, images, mt, hcopy⟩ := hcopies v c hc
    exact ⟨t, hcopy.table⟩
  refine ⟨s, himage.eq_imageOf htable ▸ hrun, hone, fun v => ⟨?_, ?_⟩, fun v c t hc ht => ?_⟩
  · rintro ⟨c, hc⟩
    obtain ⟨path, t, images, mt, hcopy⟩ := hcopies v c hc
    exact ⟨hcopy.ne_nil, ⟨t, hcopy.table⟩, path, hcopy.occurs⟩
  · rintro ⟨hv, ⟨t, ht⟩, path, hoccurs⟩
    obtain ⟨path, w, hitem⟩ := hoccurs.exists_image himage hcopies
    cases hitem with
    | nil => exact absurd rfl hv
    | copy _ hc => exact ⟨_, hc⟩
    | plain _ h => exact absurd ht (h t)
  · obtain ⟨hlt, path, t', images, mt, hcopy⟩ := hcopied v c hc
    obtain rfl := hcopy.table_eq ht
    refine ⟨hlt, ?_⟩
    rw [hcopy.copy, copyOf, foldl_store_eq htable hcopy.entries,
      hcopy.metatable.eq_imageOf htable]

end Pathless

end CodeSlices.Inspect
