import CodeSlices.Lib.Spans
import CodeSlices.Lib.Table

/-!
# The sections of a dump

`section_finder` of `tools/gedit-plugin-android-dumpstate-viewer/dumpstate-viewer.py`. Whether a
line is a header is a parameter; `isSection` is what the program's own pattern says. The end of a
section is only put in when the next header is found, so the last one ends where it starts.
-/

namespace CodeSlices.DumpstateViewer

open Spans

abbrev Str := List Char

inductive PyError
  | keyError
  | attributeError
  | valueError
  deriving DecidableEq

structure Section where
  start : Nat
  «end» : Nat
  name : Str
  desc : Str
  deriving DecidableEq

/-- `re.match(r'-----.*.[A-Z].*.------', line, re.I)`, which does not look past the newline. -/
def isSection (line : Str) : Bool :=
  let line := line.takeWhile (· != '\n')
  "-----".toList.isPrefixOf line && (line.drop 6).tails.any fun
    | [] => false
    | c :: rest => c.isAlpha && (rest.drop 1).tails.any "------".toList.isPrefixOf

/-- `line.replace(word, "")`, with the characters of the word that are still to be left out. -/
def replaceLoop (word : Str) : Nat → Str → Str
  | _, [] => []
  | 0, c :: rest =>
      if word.isPrefixOf (c :: rest) then replaceLoop word (word.length - 1) rest
      else c :: replaceLoop word 0 rest
  | skip + 1, _ :: rest => replaceLoop word skip rest

def isSpace (c : Char) : Bool :=
  c == ' ' || c == '\t' || c == '\n' || c == '\r' || c == '\x0b' || c == '\x0c'

/-- `s.strip()` -/
def strip (s : Str) : Str := ((s.dropWhile isSpace).reverse.dropWhile isSpace).reverse

def newSection (idx : Nat) (line : Str) : Section :=
  match (strip (replaceLoop "------".toList 0 line)).splitOn '(' with
  | [] => ⟨idx, idx, [], []⟩
  | [name] => ⟨idx, idx, name, name⟩
  | name :: desc :: _ => ⟨idx, idx, name, desc.filter (· != ')')⟩

/-- `sections[k]["end"] = n` -/
def setEnd (sections : Table Section) (k n : Nat) : Except PyError (Table Section) :=
  match sections.get k with
  | some sec => .ok (sections.put k { sec with «end» := n })
  | none => .error .keyError

def finderLoop (pat : Str → Bool) :
    List Str → Nat → Table Section → Nat → Except PyError (Table Section)
  | [], _, sections, _ => .ok sections
  | line :: lines, idx, sections, lastSec =>
      if pat line then do
        let sections := sections.put idx (newSection idx line)
        let sections ← if lastSec > 0 then setEnd sections lastSec (idx - 1) else .ok sections
        finderLoop pat lines (idx + 1) sections idx
      else finderLoop pat lines (idx + 1) sections lastSec

/-- `section_finder`, for the lines of the file if it can be read. -/
def sectionFinder (pat : Str → Bool) : Option (List Str) → Except PyError (Table Section)
  | none => .ok Table.empty
  | some lines => finderLoop pat lines 1 Table.empty 0

/-! ### What the sections are meant to be -/

/-- Line `k` is a header, when the lines have the numbers from `idx` on. -/
def HeaderFrom (pat : Str → Bool) (idx : Nat) (lines : List Str) (k : Nat) : Prop :=
  ∃ line, idx ≤ k ∧ lines[k - idx]? = some line ∧ pat line

abbrev IsHeader (pat : Str → Bool) (lines : List Str) (k : Nat) : Prop := HeaderFrom pat 1 lines k

structure Partitions (pat : Str → Bool) (lines : List Str) (sections : Table Section) : Prop where
  increasing : sections.keys.Pairwise (· < ·)
  header : ∀ k, k ∈ sections.keys ↔ IsHeader pat lines k
  start : ∀ row ∈ sections.rows, row.2.start = row.1
  next : ∀ row ∈ sections.rows, ∀ k, IsHeader pat lines k → row.1 < k →
    (∀ j, IsHeader pat lines j → row.1 < j → k ≤ j) → row.2.end + 1 = k
  last : ∀ row ∈ sections.rows, (∀ k, IsHeader pat lines k → k ≤ row.1) →
    row.2.end = lines.length
  cover : ∀ i ≤ lines.length, (∃ k ≤ i, IsHeader pat lines k) →
    ∃! row, row ∈ sections.rows ∧ row.2.start ≤ i ∧ i ≤ row.2.end

/-! ### What they are -/

/-- A section before the ones that come next. -/
def closeBefore (next : List Section) (sec : Section) : Section :=
  match next with
  | [] => sec
  | other :: _ => { sec with «end» := other.start - 1 }

def sectionsFrom (pat : Str → Bool) : Nat → List Str → List Section
  | _, [] => []
  | idx, line :: lines =>
      let next := sectionsFrom pat (idx + 1) lines
      if pat line then closeBefore next (newSection idx line) :: next else next

def row (sec : Section) : Nat × Section := (sec.start, sec)

variable {pat : Str → Bool} {lines : List Str} {line : Str} {idx k lastSec : Nat} {sec : Section}
  {sections : Table Section} {before : List (Nat × Section)}

@[simp]
theorem newSection_start (idx : Nat) (line : Str) : (newSection idx line).start = idx := by
  unfold newSection
  split <;> rfl

@[simp]
theorem newSection_end (idx : Nat) (line : Str) : (newSection idx line).end = idx := by
  unfold newSection
  split <;> rfl

@[simp]
theorem closeBefore_start (next : List Section) (sec : Section) :
    (closeBefore next sec).start = sec.start := by
  unfold closeBefore
  split <;> rfl

theorem headerFrom_cons :
    HeaderFrom pat idx (line :: lines) k ↔
      (k = idx ∧ pat line) ∨ HeaderFrom pat (idx + 1) lines k := by
  unfold HeaderFrom
  constructor
  · rintro ⟨other, hle, hline, hpat⟩
    rcases Nat.eq_or_lt_of_le hle with rfl | hlt
    · rw [Nat.sub_self, List.getElem?_cons_zero, Option.some.injEq] at hline
      exact Or.inl ⟨rfl, hline ▸ hpat⟩
    · rw [show k - idx = k - (idx + 1) + 1 by omega, List.getElem?_cons_succ] at hline
      exact Or.inr ⟨other, hlt, hline, hpat⟩
  · rintro (⟨rfl, hpat⟩ | ⟨other, hle, hline, hpat⟩)
    · exact ⟨line, Nat.le_refl k, by rw [Nat.sub_self, List.getElem?_cons_zero], hpat⟩
    · refine ⟨other, by omega, ?_, hpat⟩
      rwa [show k - idx = k - (idx + 1) + 1 by omega, List.getElem?_cons_succ]

theorem HeaderFrom.lt (hheader : HeaderFrom pat idx lines k) : k < idx + lines.length := by
  obtain ⟨line, hle, hline, -⟩ := hheader
  have hlt := (List.getElem?_eq_some_iff.mp hline).1
  omega

/-- There is one section for each header. -/
theorem exists_mem_sectionsFrom_iff :
    (∃ sec ∈ sectionsFrom pat idx lines, sec.start = k) ↔ HeaderFrom pat idx lines k := by
  induction lines generalizing idx with
  | nil => simp [sectionsFrom, HeaderFrom]
  | cons line lines ih =>
      rw [headerFrom_cons, ← ih, sectionsFrom]
      by_cases hpat : pat line
      · simp only [hpat, if_true, List.mem_cons, exists_eq_or_imp, closeBefore_start,
          newSection_start, and_true, eq_comm]
      · simp [hpat]

theorem le_start_of_mem (hsec : sec ∈ sectionsFrom pat idx lines) : idx ≤ sec.start := by
  obtain ⟨_, hle, -⟩ := exists_mem_sectionsFrom_iff.mp ⟨sec, hsec, rfl⟩
  exact hle

theorem sectionsFrom_eq_nil_iff :
    sectionsFrom pat idx lines = [] ↔ ∀ k, ¬ HeaderFrom pat idx lines k := by
  rw [List.eq_nil_iff_forall_not_mem]
  constructor
  · intro hnone k hheader
    obtain ⟨sec, hsec, -⟩ := exists_mem_sectionsFrom_iff.mpr hheader
    exact hnone sec hsec
  · intro hnone sec hsec
    exact hnone sec.start (exists_mem_sectionsFrom_iff.mp ⟨sec, hsec, rfl⟩)

/-- The sections follow each other, and the last one is the line of the last header. -/
theorem consecutive_sectionsFrom {next : List Section}
    (hsections : sectionsFrom pat idx lines = sec :: next) :
    ∃ m, HeaderFrom pat idx lines m ∧ (∀ k, HeaderFrom pat idx lines k → k ≤ m) ∧
      Consecutive Section.start Section.end sec.start (sec :: next) (m + 1) := by
  induction lines generalizing idx sec next with
  | nil => cases hsections
  | cons line lines ih =>
      simp only [headerFrom_cons]
      rw [sectionsFrom] at hsections
      by_cases hpat : pat line
      · rw [if_pos hpat] at hsections
        obtain ⟨rfl, rfl⟩ := List.cons.inj hsections
        cases hnext : sectionsFrom pat (idx + 1) lines with
        | nil =>
            have hnone := sectionsFrom_eq_nil_iff.mp hnext
            refine ⟨idx, Or.inl ⟨rfl, hpat⟩, ?_, rfl, ?_, ?_⟩
            · rintro k (⟨rfl, -⟩ | hheader)
              · exact Nat.le_refl k
              · exact absurd hheader (hnone k)
            · simp [closeBefore]
            · simp [closeBefore, Consecutive]
        | cons other rest =>
            obtain ⟨m, hm, hlast, hconsecutive⟩ := ih hnext
            have hother : idx + 1 ≤ other.start := by
              have hmem : other ∈ sectionsFrom pat (idx + 1) lines := hnext ▸ List.mem_cons_self
              exact le_start_of_mem hmem
            refine ⟨m, Or.inr hm, ?_, rfl, ?_, ?_⟩
            · rintro k (⟨rfl, -⟩ | hheader)
              · obtain ⟨_, hle, -⟩ := hm
                omega
              · exact hlast k hheader
            · simp only [closeBefore, newSection_start]
              omega
            · have hclose : other.start - 1 + 1 = other.start := by omega
              simpa only [closeBefore, hclose] using hconsecutive
      · rw [if_neg hpat] at hsections
        obtain ⟨m, hm, hlast, hconsecutive⟩ := ih hsections
        refine ⟨m, Or.inr hm, ?_, hconsecutive⟩
        rintro k (⟨-, hline⟩ | hheader)
        · exact absurd hline hpat
        · exact hlast k hheader

/-! ### The loop -/

theorem setEnd_eq {after : List (Nat × Section)}
    (hrows : sections.rows = before ++ (k, sec) :: after) (n : Nat) :
    setEnd sections k n = .ok (sections.put k { sec with «end» := n }) := by
  have hmem : (k, sec) ∈ sections.rows := by
    rw [hrows]
    exact List.mem_append_right before List.mem_cons_self
  rw [setEnd, Table.get_of_mem hmem]

theorem closeBefore_cons (other : Section) (next : List Section) (sec : Section) :
    closeBefore (other :: next) sec = { sec with «end» := other.start - 1 } := rfl

/-- The section that was found last is closed by the next one. -/
theorem finderLoop_open (pat : Str → Bool) (lines : List Str)
    (hrows : sections.rows = before ++ [(lastSec, sec)]) (hpos : 0 < lastSec)
    (hlt : ∀ k ∈ sections.keys, k < idx) :
    ∃ final, finderLoop pat lines idx sections lastSec = .ok final ∧
      final.rows = before ++ (lastSec, closeBefore (sectionsFrom pat idx lines) sec) ::
        (sectionsFrom pat idx lines).map row := by
  induction lines generalizing idx sections before lastSec sec with
  | nil => exact ⟨sections, rfl, hrows⟩
  | cons line lines ih =>
      have hlast : lastSec < idx := by
        refine hlt lastSec ?_
        rw [Table.keys, hrows, List.map_append]
        exact List.mem_append_right _ List.mem_cons_self
      rw [finderLoop, sectionsFrom]
      by_cases hpat : pat line
      · rw [if_pos hpat, if_pos hpat, closeBefore_cons, closeBefore_start, newSection_start]
        have hput := Table.rows_put_of_notMem (a := newSection idx line)
          (fun hmem => Nat.lt_irrefl idx (hlt idx hmem))
        rw [hrows, List.append_assoc] at hput
        have hclosed := Table.rows_put_of_eq (a := { sec with «end» := idx - 1 }) hput
        rw [List.append_cons] at hclosed
        obtain ⟨final, hfinal, hfinalRows⟩ := ih hclosed (Nat.zero_lt_of_lt hlast) fun k hk => by
          rw [Table.mem_keys_put, Table.mem_keys_put] at hk
          rcases hk with rfl | rfl | hk
          · exact Nat.lt_succ_of_lt hlast
          · exact Nat.lt_succ_self k
          · exact Nat.lt_succ_of_lt (hlt k hk)
        refine ⟨final, ?_, ?_⟩
        · rw [if_pos hpos]
          dsimp only
          rw [setEnd_eq hput]
          exact hfinal
        · rw [hfinalRows, List.map_cons, row, closeBefore_start, newSection_start,
            ← List.append_cons]
      · rw [if_neg hpat, if_neg hpat]
        exact ih hrows hpos fun k hk => Nat.lt_succ_of_lt (hlt k hk)

theorem finderLoop_rows (hpos : 0 < idx) (hrows : sections.rows = []) :
    ∃ final, finderLoop pat lines idx sections 0 = .ok final ∧
      final.rows = (sectionsFrom pat idx lines).map row := by
  induction lines generalizing idx with
  | nil => exact ⟨sections, rfl, hrows⟩
  | cons line lines ih =>
      have hnone : ∀ k, k ∉ sections.keys := by simp [Table.keys, hrows]
      rw [finderLoop, sectionsFrom]
      by_cases hpat : pat line
      · rw [if_pos hpat, if_pos hpat]
        have hput := Table.rows_put_of_notMem (a := newSection idx line) (hnone idx)
        rw [hrows] at hput
        obtain ⟨final, hfinal, hfinalRows⟩ := finderLoop_open pat lines hput hpos fun k hk => by
          rcases Table.mem_keys_put.mp hk with rfl | hk
          · exact Nat.lt_succ_self k
          · exact absurd hk (hnone k)
        refine ⟨final, hfinal, ?_⟩
        rw [hfinalRows, List.map_cons, row, closeBefore_start, newSection_start, List.nil_append]
      · rw [if_neg hpat, if_neg hpat]
        exact ih (Nat.succ_pos idx)

theorem sectionFinder_rows (pat : Str → Bool) (lines : List Str) :
    ∃ sections, sectionFinder pat (some lines) = .ok sections ∧
      sections.rows = (sectionsFrom pat 1 lines).map row :=
  finderLoop_rows Nat.one_pos rfl

/-! ### The partition -/

section Rows

variable (hrows : sections.rows = (sectionsFrom pat 1 lines).map row)
include hrows

theorem start_of_mem {r : Nat × Section} (hr : r ∈ sections.rows) : r.2.start = r.1 := by
  rw [hrows] at hr
  obtain ⟨sec, -, rfl⟩ := List.mem_map.mp hr
  rfl

theorem mem_keys_iff : k ∈ sections.keys ↔ IsHeader pat lines k := by
  rw [Table.keys, hrows, List.map_map, List.mem_map]
  exact exists_mem_sectionsFrom_iff

theorem isHeader_of_mem {r : Nat × Section} (hr : r ∈ sections.rows) : IsHeader pat lines r.1 :=
  (mem_keys_iff hrows).mp (List.mem_map_of_mem hr)

theorem exists_row_of_isHeader (hheader : IsHeader pat lines k) :
    ∃ r ∈ sections.rows, r.1 = k :=
  List.mem_map.mp ((mem_keys_iff hrows).mpr hheader)

/-- The sections are consecutive from the first header to the last one. -/
theorem exists_consecutive_rows (hheader : IsHeader pat lines k) :
    ∃ low m, IsHeader pat lines m ∧ (∀ j, IsHeader pat lines j → low ≤ j ∧ j ≤ m) ∧
      Consecutive Prod.fst (fun r : Nat × Section => r.2.end) low sections.rows (m + 1) := by
  cases hsections : sectionsFrom pat 1 lines with
  | nil => exact absurd hheader (sectionsFrom_eq_nil_iff.mp hsections k)
  | cons sec next =>
      obtain ⟨m, hm, hlast, hconsecutive⟩ := consecutive_sectionsFrom hsections
      have hspans : Consecutive Prod.fst (fun r : Nat × Section => r.2.end) sec.start
          sections.rows (m + 1) := by
        rw [hrows, hsections]
        exact Consecutive.map hconsecutive
      refine ⟨sec.start, m, hm, fun j hj => ⟨?_, hlast j hj⟩, hspans⟩
      obtain ⟨r, hr, rfl⟩ := exists_row_of_isHeader hrows hj
      exact (hspans.bounds hr).1

theorem keys_pairwise : sections.keys.Pairwise (· < ·) := by
  by_cases hheader : ∃ k, IsHeader pat lines k
  · obtain ⟨k, hk⟩ := hheader
    obtain ⟨low, m, -, -, hspans⟩ := exists_consecutive_rows hrows hk
    rw [Table.keys, List.pairwise_map]
    exact hspans.pairwise
  · rw [Table.keys, hrows, sectionsFrom_eq_nil_iff.mpr (not_exists.mp hheader)]
    exact List.Pairwise.nil

theorem partitions_of_last (hlast : IsHeader pat lines lines.length) :
    Partitions pat lines sections := by
  obtain ⟨low, m, hm, hbounds, hspans⟩ := exists_consecutive_rows hrows hlast
  have hend : m = lines.length := by
    have hlt := hm.lt
    have hle := (hbounds _ hlast).2
    omega
  constructor
  case increasing => exact keys_pairwise hrows
  case header => exact fun k => mem_keys_iff hrows
  case start => exact fun r hr => start_of_mem hrows hr
  case next =>
    intro r hr k hk hlt hfirst
    have hspan := hspans.bounds hr
    obtain ⟨other, hother, rfl⟩ := exists_row_of_isHeader hrows hk
    have hbefore := hspans.last_lt_first hr hother hlt
    rcases hspans.next hr with hhigh | ⟨next, hnext, hstart⟩
    · have hle := (hbounds _ hk).2
      omega
    · have hle := hfirst next.1 (isHeader_of_mem hrows hnext) (by omega)
      omega
  case last =>
    intro r hr hnone
    have hspan := hspans.bounds hr
    rcases hspans.next hr with hhigh | ⟨next, hnext, hstart⟩
    · omega
    · have hle := hnone next.1 (isHeader_of_mem hrows hnext)
      omega
  case cover =>
    rintro i hi ⟨k, hk, hheader⟩
    have hlow := (hbounds k hheader).1
    obtain ⟨r, ⟨hr, hspan⟩, hunique⟩ := hspans.existsUnique (i := i) (by omega) (by omega)
    refine ⟨r, ⟨hr, by rwa [start_of_mem hrows hr]⟩, ?_⟩
    rintro r' ⟨hr', hspan'⟩
    rw [start_of_mem hrows hr'] at hspan'
    exact hunique r' ⟨hr', hspan'⟩

theorem partitions_of_forall_not (hnone : ∀ k, ¬ IsHeader pat lines k) :
    Partitions pat lines sections := by
  have hnil : sections.rows = [] := by rw [hrows, sectionsFrom_eq_nil_iff.mpr hnone, List.map_nil]
  constructor
  case increasing => exact keys_pairwise hrows
  case header => exact fun k => mem_keys_iff hrows
  case start => simp [hnil]
  case next => simp [hnil]
  case last => simp [hnil]
  case cover =>
    rintro i - ⟨k, -, hheader⟩
    exact absurd hheader (hnone k)

/-- The last section is its header alone. -/
theorem end_of_last {r : Nat × Section} (hr : r ∈ sections.rows)
    (hlast : ∀ k, IsHeader pat lines k → k ≤ r.1) : r.2.end = r.1 := by
  obtain ⟨low, m, hm, hbounds, hspans⟩ := exists_consecutive_rows hrows (isHeader_of_mem hrows hr)
  have hle := hlast m hm
  have hspan := hspans.bounds hr
  omega

end Rows

/-- The sections are a partition if the file ends with a header or has none. -/
theorem sectionFinder_partitions_iff (pat : Str → Bool) (lines : List Str) :
    (∃ sections, sectionFinder pat (some lines) = .ok sections ∧ Partitions pat lines sections) ↔
      ((∃ k, IsHeader pat lines k) → IsHeader pat lines lines.length) := by
  obtain ⟨sections, hfinder, hrows⟩ := sectionFinder_rows pat lines
  rw [hfinder]
  constructor
  · rintro ⟨_, hsections, hpartitions⟩ ⟨k, hk⟩
    obtain rfl := Except.ok.inj hsections
    obtain ⟨low, m, hm, hbounds, -⟩ := exists_consecutive_rows hrows hk
    obtain ⟨r, hr, rfl⟩ := exists_row_of_isHeader hrows hm
    have hlast : ∀ k, IsHeader pat lines k → k ≤ r.1 := fun k hk => (hbounds k hk).2
    rw [← hpartitions.last r hr hlast, end_of_last hrows hr hlast]
    exact hm
  · intro hlast
    refine ⟨sections, rfl, ?_⟩
    by_cases hheader : ∃ k, IsHeader pat lines k
    · exact partitions_of_last hrows (hlast hheader)
    · exact partitions_of_forall_not hrows (not_exists.mp hheader)

def uptime : List Str := ["------ UPTIME (uptime) ------\n".toList, "up time: 00:03\n".toList]

/-- The second line belongs to no section. -/
theorem uptime_outside : ¬ ∀ (pat : Str → Bool) (lines : List Str),
    ∃ sections, sectionFinder pat (some lines) = .ok sections ∧ Partitions pat lines sections := by
  intro hall
  obtain ⟨sections, hfinder, hpartitions⟩ := hall isSection uptime
  have hrows : (sectionFinder isSection (some uptime)).map Table.rows =
      .ok [(1, ⟨1, 1, "UPTIME ".toList, "uptime".toList⟩)] := by decide
  rw [hfinder] at hrows
  have hheader : ∃ k ≤ 2, IsHeader isSection uptime k :=
    ⟨1, by decide, "------ UPTIME (uptime) ------\n".toList, by decide, rfl, by decide⟩
  obtain ⟨r, ⟨hr, -, hle⟩, -⟩ := hpartitions.cover 2 (Nat.le_refl 2) hheader
  rw [Except.ok.inj hrows, List.mem_singleton] at hr
  rw [hr] at hle
  exact absurd hle (by decide)

end CodeSlices.DumpstateViewer
