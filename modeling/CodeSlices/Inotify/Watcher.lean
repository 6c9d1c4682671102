import Mathlib.Data.List.TakeWhile
import CodeSlices.Lib.LittleEndian
import CodeSlices.Lib.Logged

/-!
# The events in a buffer

The loop of `watcher` of `tools/inotify/inotify-watcher.c` over what one `read` has put in the
buffer, on a little-endian machine. The log has every header that is read, every call of
`dump_inotify_event` and what it prints.
-/

namespace CodeSlices.Inotify

open CodeSlices.Logged

inductive Fault
  | outside
  | running
  deriving DecidableEq

/-- The fields of `struct inotify_event` before its name. -/
structure Header where
  wd : UInt32
  mask : UInt32
  cookie : UInt32
  len : UInt32
  deriving DecidableEq

inductive Entry
  | header (i : ℤ)
  | dump (i : ℤ) (event : Header)
  | line (event kind : String) (dir name : List UInt8)
  deriving DecidableEq

abbrev Run := Logged Entry Fault

def eventSize : Nat := 16

def bufLen : Nat := 1024 * (eventSize + 16)

def eventToStr (mask : UInt32) : String :=
  if mask &&& 0x20 ≠ 0 then "OPEN"
  else if mask &&& 0x18 ≠ 0 then "CLOSE"
  else if mask &&& 0x100 ≠ 0 then "CREATE"
  else if mask &&& 0x200 ≠ 0 then "DELETE"
  else if mask &&& 0x2 ≠ 0 then "MODIFY"
  else if mask &&& 0x40 ≠ 0 then "MOVEFR"
  else if mask &&& 0x80 ≠ 0 then "MOVETO"
  else "OTHER"

def loadWord (buffer : List UInt8) (i : Nat) : UInt32 :=
  UInt32.ofNat (LittleEndian.value ((buffer.drop i).take 4))

/-- The header of the event at `&buffer[i]`. -/
def loadHeader (buffer : List UInt8) (i : ℤ) : Run Header :=
  if 0 ≤ i ∧ i + eventSize ≤ buffer.length then do
    emit (.header i)
    return ⟨loadWord buffer i.toNat, loadWord buffer (i.toNat + 4), loadWord buffer (i.toNat + 8),
      loadWord buffer (i.toNat + 12)⟩
  else throw .outside

/-- The string at `&buffer[i]`, up to its terminator. -/
def loadString (buffer : List UInt8) (i : Nat) : Run (List UInt8) :=
  if 0 ∈ buffer.drop i then return (buffer.drop i).takeWhile (· ≠ 0) else throw .outside

/-- `dump_inotify_event`, which prints its line with the format `"%-6s %s %s/%s\n"`. -/
def dumpInotifyEvent (targetDir buffer : List UInt8) (i : ℤ) (event : Header) : Run Unit := do
  emit (.dump i event)
  if event.len = 0 then
    return ()
  else
    let name ← loadString buffer (i.toNat + eventSize)
    let kind := if event.mask &&& 0x40000000 ≠ 0 then "D" else "F"
    emit (.line (eventToStr event.mask) kind targetDir name)

/-- `i += EVENT_SIZE + event->len`, a sum of unsigned numbers that is put in an `int` again. -/
def advance (i : ℤ) (len : UInt32) : ℤ := (i + (eventSize + len.toNat : Nat)).bmod (2 ^ 32)

def eventLoop (targetDir buffer : List UInt8) (length : ℤ) : Nat → ℤ → Run ℤ
  | 0, _ => throw .running
  | fuel + 1, i =>
      if i < length then do
        let event ← loadHeader buffer i
        dumpInotifyEvent targetDir buffer i event
        eventLoop targetDir buffer length fuel (advance i event.len)
      else return i

/-- The outer loop over what `read` puts at the start of the buffer, or fails to; it stops when
there is nothing more to read. -/
def watcher (targetDir : List UInt8) (fuel : Nat) :
    List (Option (List UInt8)) → List UInt8 → Run Unit
  | [], _ => return ()
  | none :: _, _ => return ()
  | some bytes :: reads, buffer => do
      let buffer := bytes ++ buffer.drop bytes.length
      let _ ← eventLoop targetDir buffer bytes.length fuel 0
      watcher targetDir fuel reads buffer

/-! ### The events -/

/-- An event as the kernel writes it. A name that is there has its terminator in the field. -/
structure Event where
  wd : UInt32
  mask : UInt32
  cookie : UInt32
  name : List UInt8
  padded : name = [] ∨ 0 ∈ name

def Event.header (e : Event) : Header := ⟨e.wd, e.mask, e.cookie, UInt32.ofNat e.name.length⟩

def Event.size (e : Event) : Nat := eventSize + e.name.length

def encodeWord (word : UInt32) : List UInt8 := LittleEndian.encode 4 word.toNat

def Event.encode (e : Event) : List UInt8 :=
  encodeWord e.wd ++ encodeWord e.mask ++ encodeWord e.cookie ++
    encodeWord (UInt32.ofNat e.name.length) ++ e.name

def encodeAll (events : List Event) : List UInt8 := events.flatMap Event.encode

def Event.line (targetDir : List UInt8) (e : Event) : List Entry :=
  if e.name = [] then [] else
    [.line (eventToStr e.mask) (if e.mask &&& 0x40000000 ≠ 0 then "D" else "F") targetDir
      (e.name.takeWhile (· ≠ 0))]

/-- What is written to the log for events that are stored from `i` on. -/
def entriesFrom (targetDir : List UInt8) : Nat → List Event → List Entry
  | _, [] => []
  | i, e :: events =>
      .header i :: .dump i e.header ::
        (e.line targetDir ++ entriesFrom targetDir (i + e.size) events)

def calls (log : List Entry) : List (ℤ × Header) :=
  log.filterMap fun
    | .dump i event => some (i, event)
    | _ => none

variable {targetDir pre rest buffer : List UInt8} {e : Event} {events : List Event} {i fuel : Nat}

@[simp]
theorem length_encodeWord (word : UInt32) : (encodeWord word).length = 4 :=
  LittleEndian.length_encode 4 _

@[simp]
theorem Event.length_encode (e : Event) : e.encode.length = e.size := by
  simp [encode, size, eventSize]
  omega

theorem encodeAll_cons (e : Event) (events : List Event) :
    encodeAll (e :: events) = e.encode ++ encodeAll events := List.flatMap_cons

/-! ### One round -/

theorem loadWord_eq (pre rest : List UInt8) (word : UInt32) :
    loadWord (pre ++ (encodeWord word ++ rest)) pre.length = word := by
  rw [loadWord, List.drop_left, List.take_left' (length_encodeWord word), encodeWord,
    LittleEndian.value_encode word.toNat_lt, UInt32.ofNat_toNat]

theorem yields_loadHeader (pre rest : List UInt8) (e : Event) :
    Yields (loadHeader (pre ++ (e.encode ++ rest)) pre.length) [.header pre.length] e.header := by
  have hsize : e.size = eventSize + e.name.length := rfl
  have h0 := loadWord_eq pre (encodeWord e.mask ++ (encodeWord e.cookie ++
    (encodeWord (UInt32.ofNat e.name.length) ++ (e.name ++ rest)))) e.wd
  have h1 := loadWord_eq (pre ++ encodeWord e.wd) (encodeWord e.cookie ++
    (encodeWord (UInt32.ofNat e.name.length) ++ (e.name ++ rest))) e.mask
  have h2 := loadWord_eq (pre ++ encodeWord e.wd ++ encodeWord e.mask)
    (encodeWord (UInt32.ofNat e.name.length) ++ (e.name ++ rest)) e.cookie
  have h3 := loadWord_eq (pre ++ encodeWord e.wd ++ encodeWord e.mask ++ encodeWord e.cookie)
    (e.name ++ rest) (UInt32.ofNat e.name.length)
  simp only [List.append_assoc, List.length_append, length_encodeWord] at h1 h2 h3
  unfold loadHeader
  rw [if_pos ⟨Int.natCast_nonneg _, by simp [hsize]; omega⟩]
  refine (Yields.emit _).bind ?_
  simp only [Event.encode, List.append_assoc, Int.toNat_natCast, h0, h1, h2, h3]
  exact Yields.pure _

theorem takeWhile_terminated {name : List UInt8} (hnul : 0 ∈ name) (rest : List UInt8) :
    (name ++ rest).takeWhile (· ≠ 0) = name.takeWhile (· ≠ 0) := by
  rw [List.takeWhile_append, if_neg]
  intro hlen
  have hall := (List.takeWhile_prefix (p := fun c : UInt8 => decide (c ≠ 0))).eq_of_length hlen
  have hzero := List.takeWhile_eq_self_iff.mp hall 0 hnul
  simp at hzero

theorem yields_loadString (pre rest : List UInt8) {name : List UInt8} (hnul : 0 ∈ name) :
    Yields (loadString (pre ++ (name ++ rest)) pre.length) [] (name.takeWhile (· ≠ 0)) := by
  unfold loadString
  rw [List.drop_left, if_pos (List.mem_append_left rest hnul), takeWhile_terminated hnul]
  exact Yields.pure _

theorem toNat_len (hname : e.name.length < 2 ^ 32) : e.header.len.toNat = e.name.length :=
  UInt32.toNat_ofNat_of_lt' hname

theorem yields_dumpInotifyEvent (pre rest : List UInt8) (hname : e.name.length < 2 ^ 32) :
    Yields (dumpInotifyEvent targetDir (pre ++ (e.encode ++ rest)) pre.length e.header)
      (.dump pre.length e.header :: e.line targetDir) () := by
  have hlen : e.header.len = 0 ↔ e.name = [] := by
    rw [← UInt32.toNat_inj, toNat_len hname]
    exact List.length_eq_zero_iff
  refine (Yields.emit (Entry.dump pre.length e.header)).bind ?_
  by_cases hnil : e.name = []
  · rw [if_pos hnil, if_pos (hlen.mpr hnil)]
    exact Yields.pure ()
  · have hstring := yields_loadString (pre ++ (encodeWord e.wd ++ (encodeWord e.mask ++
      (encodeWord e.cookie ++ encodeWord (UInt32.ofNat e.name.length))))) rest
      (e.padded.resolve_left hnil)
    simp only [List.append_assoc, List.length_append, length_encodeWord] at hstring
    rw [if_neg hnil, if_neg (mt hlen.mp hnil), Event.encode]
    simp only [List.append_assoc, Int.toNat_natCast]
    exact hstring.bind (Yields.emit _)

theorem advance_eq {len : UInt32} (hlt : i + (eventSize + len.toNat) < 2 ^ 31) :
    advance i len = (i + (eventSize + len.toNat) : Nat) := by
  rw [advance, ← Nat.cast_add]
  exact Int.bmod_eq_of_le (by omega) (by omega)

/-! ### The loop -/

/-- The loop stands at the start of the events that are left. -/
theorem yields_eventLoop (pre : List UInt8)
    (hsize : (pre ++ (encodeAll events ++ rest)).length < 2 ^ 31)
    (hfuel : events.length ≤ fuel) :
    Yields (eventLoop targetDir (pre ++ (encodeAll events ++ rest))
        (pre ++ encodeAll events).length (fuel + 1) pre.length)
      (entriesFrom targetDir pre.length events) (pre ++ encodeAll events).length := by
  induction events generalizing pre fuel with
  | nil =>
      rw [eventLoop, if_neg (by simp [encodeAll])]
      simp only [encodeAll, List.flatMap_nil, List.append_nil]
      exact Yields.pure _
  | cons e events ih =>
      obtain ⟨fuel, rfl⟩ := Nat.exists_eq_add_of_le' (Nat.le_trans (Nat.succ_pos _) hfuel)
      have hencode : e.encode.length = eventSize + e.name.length := e.length_encode
      simp only [encodeAll_cons, List.append_assoc, List.length_append] at hsize ⊢
      have hname : e.name.length < 2 ^ 32 := by omega
      have hnext : advance pre.length e.header.len = (pre ++ e.encode).length := by
        rw [advance_eq (by rw [toNat_len hname]; omega), toNat_len hname, List.length_append,
          hencode]
      have hrest := ih (pre ++ e.encode)
        (by simp only [List.append_assoc, List.length_append]; omega)
        (Nat.le_of_succ_le_succ hfuel)
      simp only [List.append_assoc, List.length_append, Event.length_encode] at hrest
      rw [eventLoop, if_pos (by simp [Event.size, eventSize]; omega)]
      refine (yields_loadHeader pre _ e).bind ((yields_dumpInotifyEvent pre _ hname).bind ?_)
      rw [hnext, List.length_append, e.length_encode]
      exact hrest

/-! ### What is in the log -/

theorem calls_header (i : ℤ) (log : List Entry) : calls (.header i :: log) = calls log := rfl

theorem calls_dump (i : ℤ) (event : Header) (log : List Entry) :
    calls (.dump i event :: log) = (i, event) :: calls log := rfl

theorem calls_append (log log' : List Entry) : calls (log ++ log') = calls log ++ calls log' :=
  List.filterMap_append

theorem calls_line (targetDir : List UInt8) (e : Event) : calls (e.line targetDir) = [] := by
  unfold Event.line
  split <;> rfl

theorem calls_entriesFrom (targetDir : List UInt8) (i : Nat) (events : List Event) :
    calls (entriesFrom targetDir i events) =
      events.mapIdx fun k e =>
        (((i + (encodeAll (events.take k)).length : Nat) : ℤ), e.header) := by
  induction events generalizing i with
  | nil => rfl
  | cons e events ih =>
      rw [entriesFrom, calls_header, calls_dump, calls_append, calls_line, List.nil_append, ih,
        List.mapIdx_cons]
      simp [encodeAll, Nat.add_assoc]

theorem header_mem_line {j : ℤ} : Entry.header j ∉ e.line targetDir := by
  unfold Event.line
  split <;> simp

/-- Every header that is read lies in the part that is stored. -/
theorem header_mem_entriesFrom {j : ℤ} (hmem : .header j ∈ entriesFrom targetDir i events) :
    i ≤ j ∧ j + eventSize ≤ (i + (encodeAll events).length : Nat) := by
  induction events generalizing i with
  | nil => cases hmem
  | cons e events ih =>
      have hsize : e.size = eventSize + e.name.length := rfl
      rw [entriesFrom, List.mem_cons, List.mem_cons, List.mem_append] at hmem
      rw [encodeAll_cons, List.length_append, e.length_encode]
      rcases hmem with hj | hj | hj | hj
      · obtain rfl := Entry.header.inj hj
        omega
      · cases hj
      · exact absurd hj header_mem_line
      · have hrest := ih hj
        omega

theorem calls_entriesFrom_snd (targetDir : List UInt8) (i : Nat) (events : List Event) :
    (calls (entriesFrom targetDir i events)).map Prod.snd = events.map Event.header := by
  rw [calls_entriesFrom]
  exact List.ext_getElem? fun k => by simp [Function.comp_def]

/-- What was read fits in the buffer, so the offsets fit in an `int`. -/
theorem yields_eventLoop_read (targetDir : List UInt8) {rest : List UInt8}
    (hfit : (encodeAll events ++ rest).length = bufLen) (hfuel : fuel > events.length) :
    Yields (eventLoop targetDir (encodeAll events ++ rest) (encodeAll events).length fuel 0)
      (entriesFrom targetDir 0 events) (encodeAll events).length := by
  obtain ⟨fuel, rfl⟩ := Nat.exists_eq_add_of_le' (Nat.succ_le_of_lt (Nat.zero_lt_of_lt hfuel))
  have hsize : (encodeAll events ++ rest).length < 2 ^ 31 := by
    rw [hfit]
    decide
  exact yields_eventLoop [] hsize (Nat.le_of_lt_succ hfuel)

/-- The loop ends at the end of what was read, after a call for each event where it starts, and
reads no header beyond it. -/
theorem eventLoop_handsEach (targetDir rest : List UInt8) (events : List Event)
    (hfit : (encodeAll events ++ rest).length = bufLen) :
    ∃ log, (∀ fuel > events.length, Yields (eventLoop targetDir (encodeAll events ++ rest)
        (encodeAll events).length fuel 0) log (encodeAll events).length) ∧
      calls log = events.mapIdx (fun k e => (((encodeAll (events.take k)).length : ℤ), e.header)) ∧
      ∀ j : ℤ, .header j ∈ log → 0 ≤ j ∧ j + eventSize ≤ (encodeAll events).length := by
  refine ⟨entriesFrom targetDir 0 events, fun _ => yields_eventLoop_read targetDir hfit, ?_,
    fun j hj => ?_⟩
  · simpa using calls_entriesFrom targetDir 0 events
  · simpa using header_mem_entriesFrom hj

def inWatch (name : List UInt8) (padded : name = [] ∨ 0 ∈ name) : Event :=
  ⟨1, 0x100, 0, name, padded⟩

theorem twoEvents_handsEach : ∃ log : List Entry,
    (∀ fuel > 2, Yields (eventLoop ['/'.toUInt8] (encodeAll [inWatch [] (by decide),
      inWatch ['a'.toUInt8, 0, 0, 0] (by decide)] ++ List.replicate 32732 0) 36 fuel 0) log 36) ∧
    calls log = [(0, ⟨1, 0x100, 0, 0⟩), (16, ⟨1, 0x100, 0, 4⟩)] ∧
    ∀ j : ℤ, .header j ∈ log → 0 ≤ j ∧ j + eventSize ≤ 36 :=
  eventLoop_handsEach ['/'.toUInt8] (List.replicate 32732 0)
    [inWatch [] (by decide), inWatch ['a'.toUInt8, 0, 0, 0] (by decide)]
    (by rw [List.length_append, List.length_replicate]; rfl)

/-- Over all reads every event is handed over once, in order. -/
theorem watcher_calls (targetDir : List UInt8) (batches : List (List Event))
    (hfit : ∀ events ∈ batches, (encodeAll events).length ≤ bufLen) {buffer : List UInt8}
    (hbuffer : buffer.length = bufLen) :
    ∃ log bound, (∀ fuel ≥ bound, Yields (watcher targetDir fuel
        (batches.map fun events => some (encodeAll events)) buffer) log ()) ∧
      (calls log).map Prod.snd = batches.flatten.map Event.header := by
  induction batches generalizing buffer with
  | nil => exact ⟨[], 0, fun _ _ => Yields.pure (), rfl⟩
  | cons events batches ih =>
      obtain ⟨hle, hrest⟩ := List.forall_mem_cons.mp hfit
      have hfilled :
          (encodeAll events ++ buffer.drop (encodeAll events).length).length = bufLen := by
        rw [List.length_append, List.length_drop, hbuffer]
        omega
      obtain ⟨new, bound, hnew, hlast⟩ := ih hrest hfilled
      refine ⟨entriesFrom targetDir 0 events ++ new, max bound (events.length + 1),
        fun fuel hfuel => ?_, ?_⟩
      · have hgt : fuel > events.length := by omega
        have hevents := yields_eventLoop_read targetDir hfilled hgt
        exact hevents.bind (hnew fuel (by omega))
      · rw [calls_append, List.map_append, calls_entriesFrom_snd, hlast, List.flatten_cons,
          List.map_append]

end CodeSlices.Inotify
