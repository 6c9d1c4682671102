import Mathlib.Data.List.Sort
import CodeSlices.DumpstateViewer.Sections
import CodeSlices.Lib.Except

/-!
# The section pane

`active_tab_changed` and the callbacks of the list of
`tools/gedit-plugin-android-dumpstate-viewer/dumpstate-viewer.py`. The handler appends to the list
and never clears it, so that the rows of every document that was current stay.
-/

namespace CodeSlices.DumpstateViewer

structure Document where
  id : Nat
  uri : Str
  deriving DecidableEq

structure Tab where
  document : Document
  view : Nat

/-- An `active-tab-changed` event, with the lines of the files that can be read when it comes. -/
structure Change where
  tab : Tab
  files : Str → Option (List Str)

/-- The fields that are set by the first event are unset before it. -/
structure Pane where
  listStore : List Section
  sections : Option (Table Section)
  currentDoc : Option Document
  currentView : Option Nat

def Pane.init : Pane := ⟨[], none, none, none⟩

inductive Call
  | gotoLine (doc : Document) (line : Nat)
  | scrollToCursor (view : Nat)
  deriving DecidableEq

/-- `secs[idx]` for the `idx` of `sorted(secs.keys())` -/
def lineOrder (secs : Table Section) : Except PyError (List Section) :=
  (secs.keys.insertionSort (· ≤ ·)).mapM fun idx =>
    match secs.get idx with
    | some sec => .ok sec
    | none => .error .keyError

def activeTabChanged (pat : Str → Bool) (pane : Pane) (e : Change) : Except PyError Pane := do
  let doc := e.tab.document
  let secs ← sectionFinder pat (e.files doc.uri)
  let rows ← lineOrder secs
  return ⟨pane.listStore ++ rows, some secs, some doc, some e.tab.view⟩

def gotoLine (pane : Pane) (line : Nat) : Except PyError (List Call) :=
  match pane.currentDoc, pane.currentView with
  | some doc, some view => .ok [.gotoLine doc line, .scrollToCursor view]
  | _, _ => .error .attributeError

def gotoSectionStart (pane : Pane) (selected : Option Nat) : Except PyError (List Call) :=
  match selected with
  | none => .ok []
  | some i =>
      match pane.listStore[i]? with
      | some sec => gotoLine pane sec.start
      | none => .error .valueError

def gotoSectionEnd (pane : Pane) (path : Nat) : Except PyError (List Call) :=
  match pane.listStore[path]? with
  | some sec => gotoLine pane sec.end
  | none => .error .valueError

/-! ### A pane in step with its document -/

/-- The sections of the document of an event, in line order. -/
def Change.sections (pat : Str → Bool) (e : Change) : Except PyError (List Section) := do
  lineOrder (← sectionFinder pat (e.files e.tab.document.uri))

structure InStep (pat : Str → Bool) (e : Change) (pane : Pane) : Prop where
  rows : e.sections pat = .ok pane.listStore
  selects : ∀ i < pane.listStore.length, ∃ secs, e.sections pat = .ok secs ∧ ∃ sec ∈ secs,
    gotoSectionStart pane (some i) =
      .ok [.gotoLine e.tab.document sec.start, .scrollToCursor e.tab.view]

/-- The pane is in step after each of the events. -/
def StaysInStep (pat : Str → Bool) : Pane → List Change → Prop
  | _, [] => True
  | pane, e :: events =>
      ∃ next, activeTabChanged pat pane e = .ok next ∧ InStep pat e next ∧
        StaysInStep pat next events

/-- No line of the document is a header, or its file cannot be read. -/
def Change.Sectionless (pat : Str → Bool) (e : Change) : Prop :=
  ∀ lines, e.files e.tab.document.uri = some lines → ∀ line ∈ lines, ¬ pat line

variable {pat : Str → Bool} {pane next : Pane} {e : Change} {events : List Change}
  {secs : List Section}

theorem lineOrder_eq {sections : Table Section} (hsorted : sections.keys.Pairwise (· < ·)) :
    lineOrder sections = .ok (sections.rows.map Prod.snd) := by
  have hkeys : sections.keys.insertionSort (· ≤ ·) = sections.keys :=
    (hsorted.imp Nat.le_of_lt).insertionSort_eq
  rw [lineOrder, hkeys, Table.keys, List.mapM_map]
  refine mapM_eq_ok fun r hr => ?_
  rw [Function.comp_apply, Table.get_of_mem hr]

theorem sectionsFrom_eq_nil_iff_forall {idx : Nat} {lines : List Str} :
    sectionsFrom pat idx lines = [] ↔ ∀ line ∈ lines, ¬ pat line := by
  induction lines generalizing idx with
  | nil => simp [sectionsFrom]
  | cons line lines ih => by_cases hpat : pat line <;> simp [sectionsFrom, hpat, ih]

theorem Change.exists_sections (pat : Str → Bool) (e : Change) :
    ∃ table secs, sectionFinder pat (e.files e.tab.document.uri) = .ok table ∧
      lineOrder table = .ok secs ∧ (secs = [] ↔ e.Sectionless pat) := by
  unfold Sectionless
  cases e.files e.tab.document.uri with
  | none => exact ⟨Table.empty, [], rfl, rfl, by simp⟩
  | some lines =>
      obtain ⟨table, htable, hrows⟩ := sectionFinder_rows pat lines
      refine ⟨table, _, htable, lineOrder_eq (keys_pairwise hrows), ?_⟩
      rw [hrows, List.map_map, List.map_eq_nil_iff, sectionsFrom_eq_nil_iff_forall]
      simp

/-! ### One event -/

/-- The handler appends the sections of the document. -/
theorem exists_activeTabChanged (pat : Str → Bool) (pane : Pane) (e : Change) :
    ∃ secs next, e.sections pat = .ok secs ∧ (secs = [] ↔ e.Sectionless pat) ∧
      activeTabChanged pat pane e = .ok next ∧ next.listStore = pane.listStore ++ secs ∧
      next.currentDoc = some e.tab.document ∧ next.currentView = some e.tab.view := by
  obtain ⟨table, secs, htable, hsecs, hnil⟩ := e.exists_sections pat
  refine ⟨secs, ⟨pane.listStore ++ secs, some table, some e.tab.document, some e.tab.view⟩,
    ?_, hnil, ?_, rfl, rfl, rfl⟩
  · rw [Change.sections, htable, ok_bind, hsecs]
  · rw [activeTabChanged, htable, ok_bind, hsecs, ok_bind]
    rfl

theorem gotoLine_eq {doc : Document} {view : Nat} (hdoc : pane.currentDoc = some doc)
    (hview : pane.currentView = some view) (line : Nat) :
    gotoLine pane line = .ok [.gotoLine doc line, .scrollToCursor view] := by
  rw [gotoLine, hdoc, hview]

/-- A click on a row and a double click. -/
theorem gotoSection_eq {doc : Document} {view i : Nat} (hdoc : pane.currentDoc = some doc)
    (hview : pane.currentView = some view) (hi : i < pane.listStore.length) :
    gotoSectionStart pane (some i) =
        .ok [.gotoLine doc pane.listStore[i].start, .scrollToCursor view] ∧
      gotoSectionEnd pane i =
        .ok [.gotoLine doc pane.listStore[i].end, .scrollToCursor view] := by
  rw [gotoSectionStart, gotoSectionEnd, List.getElem?_eq_getElem hi]
  exact ⟨gotoLine_eq hdoc hview _, gotoLine_eq hdoc hview _⟩

/-- The pane is in step if its list was empty before the event. -/
theorem inStep_iff (hsecs : e.sections pat = .ok secs)
    (hrows : next.listStore = pane.listStore ++ secs)
    (hdoc : next.currentDoc = some e.tab.document) (hview : next.currentView = some e.tab.view) :
    InStep pat e next ↔ pane.listStore = [] := by
  constructor
  · intro hstep
    have heq := Except.ok.inj (hsecs.symm.trans hstep.rows)
    rw [hrows] at heq
    exact List.self_eq_append_left.mp heq
  · intro hnil
    rw [hnil, List.nil_append] at hrows
    subst hrows
    exact ⟨hsecs, fun i hi => ⟨_, hsecs, next.listStore[i], List.getElem_mem hi,
      (gotoSection_eq hdoc hview hi).1⟩⟩

/-! ### Runs -/

/-- The list has the sections of every document that was current. -/
theorem listStore_run (pat : Str → Bool) (pane : Pane) (events : List Change) :
    ∃ last secss, events.foldlM (activeTabChanged pat) pane = .ok last ∧
      events.mapM (Change.sections pat) = .ok secss ∧
      last.listStore = pane.listStore ++ secss.flatten := by
  induction events generalizing pane with
  | nil => exact ⟨pane, [], rfl, rfl, (List.append_nil _).symm⟩
  | cons e events ih =>
      obtain ⟨secs, next, hsecs, -, hnext, hrows, -⟩ := exists_activeTabChanged pat pane e
      obtain ⟨last, secss, hlast, hsecss, hall⟩ := ih next
      refine ⟨last, secs :: secss, ?_, ?_, ?_⟩
      · rw [List.foldlM_cons, hnext, ok_bind, hlast]
      · rw [List.mapM_cons, hsecs, ok_bind, hsecss]
        rfl
      · rw [hall, hrows, List.append_assoc, List.flatten_cons]

theorem staysInStep_iff (pat : Str → Bool) (pane : Pane) (events : List Change) :
    StaysInStep pat pane events ↔
      events = [] ∨ pane.listStore = [] ∧ ∀ e ∈ events.dropLast, e.Sectionless pat := by
  induction events generalizing pane with
  | nil => simp [StaysInStep]
  | cons e events ih =>
      obtain ⟨secs, next, hsecs, hnil, hnext, hrows, hdoc, hview⟩ :=
        exists_activeTabChanged pat pane e
      have hstep := inStep_iff hsecs hrows hdoc hview
      have hstays : StaysInStep pat pane (e :: events) ↔
          InStep pat e next ∧ StaysInStep pat next events := by
        rw [StaysInStep, hnext]
        simp
      rw [hstays, hstep, ih next, hrows]
      cases events with
      | nil => simp
      | cons other events =>
          rw [List.dropLast_cons_cons, List.forall_mem_cons, ← hnil]
          simp +contextual

/-- The pane stays in step as long as no document with sections has been current before. -/
theorem staysInStep_init_iff (pat : Str → Bool) (events : List Change) :
    StaysInStep pat Pane.init events ↔ ∀ e ∈ events.dropLast, e.Sectionless pat := by
  rw [staysInStep_iff]
  constructor
  · rintro (rfl | ⟨-, hevents⟩)
    · exact List.forall_mem_nil _
    · exact hevents
  · exact fun hevents => Or.inr ⟨rfl, hevents⟩

def opened (id : Nat) (file : Option (List Str)) : Change := ⟨⟨⟨id, []⟩, id⟩, fun _ => file⟩

/-- The row of the dump stays when a document that cannot be read becomes current. -/
theorem uptime_stays : ¬ ∀ (pat : Str → Bool) (events : List Change),
    StaysInStep pat Pane.init events := by
  intro hall
  have hstays := hall isSection [opened 0 (some uptime), opened 1 none]
  rcases (staysInStep_iff _ _ _).mp hstays with hnil | ⟨-, hevents⟩
  · cases hnil
  · exact hevents _ List.mem_cons_self uptime rfl _ List.mem_cons_self (by decide)

end CodeSlices.DumpstateViewer
