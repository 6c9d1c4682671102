import Mathlib.Data.List.Forall2
import CodeSlices.UeventView.Dump

/-!
# One field on each line

A uevent is a header `action@devpath` and fields `KEY=VALUE`, with a NUL before each field and
perhaps one at the end. The layout of the README has a line break before each key and no other.
`dump_event` breaks the line at a capital when the last letter or digit before it was none, and so
finds the keys only as far as paths and values have no capitals.
-/

namespace CodeSlices.UeventView

structure Field where
  key : Text
  value : Text
  key_first : ∃ c ∈ key.head?, isCapital c
  key_chars : ∀ c ∈ key, isCapital c ∨ c = '_'.toUInt8
  value_noNul : 0 ∉ value

structure Uevent where
  action : Text
  path : Text
  fields : List Field
  action_lower : ∀ c ∈ action, 'a'.toUInt8 ≤ c ∧ c ≤ 'z'.toUInt8
  path_noNul : 0 ∉ path

def Field.text (field : Field) : Text := field.key ++ '='.toUInt8 :: field.value

def Uevent.header (event : Uevent) : Text := event.action ++ '@'.toUInt8 :: event.path

def fieldsText (fields : List Field) : Text := fields.flatMap fun field => 0 :: field.text

/-- The message of an event, with or without a NUL at the end. -/
def Uevent.message (event : Uevent) (terminated : Bool) : Text :=
  event.header ++ fieldsText event.fields ++ if terminated then [0] else []

/-- A byte with the blanks the event viewer puts around signs. -/
def spacedByte (c : UInt8) : Text := if isSign c then [space, c, space] else [c]

def spaced (text : Text) : Text := text.flatMap spacedByte

def lineBreak : Text := [newline, space, space]

/-- The text of an event with a line break before each key and nowhere else. -/
def Uevent.layout (event : Uevent) (terminated : Bool) : Text :=
  spaced event.header ++ (event.fields.flatMap fun field => 0 :: lineBreak ++ spaced field.text) ++
    (if terminated then [0] else []) ++ [newline, newline]

/-- The event is written to any stream in the layout above. -/
def LaidOut (event : Uevent) (terminated : Bool) : Prop :=
  ∀ fd, dumpEvent (event.message terminated) (event.message terminated).length (some fd) =
    .ok (some (fd ++ event.layout terminated))

/-- No capital stands after a lower-case letter or a digit. -/
def CapitalsFirst (value : Text) : Prop :=
  value.Pairwise fun c d => isLowerOrDigit c → ¬ isCapital d

instance (value : Text) : Decidable (CapitalsFirst value) :=
  inferInstanceAs (Decidable (List.Pairwise _ _))

/-- There are no capitals in the path and none after a lower-case letter or a digit in a value, and
every value with a field after it has a lower-case letter or a digit. -/
def BreaksAtKeys (event : Uevent) : Prop :=
  (∀ c ∈ event.path, ¬ isCapital c) ∧ (∀ field ∈ event.fields, CapitalsFirst field.value) ∧
    ∀ field ∈ event.fields.dropLast, ∃ c ∈ field.value, isLowerOrDigit c

instance (event : Uevent) : Decidable (BreaksAtKeys event) := inferInstanceAs (Decidable (_ ∧ _))

variable {c : UInt8} {cap : Bool} {text left right : Text} {marks marks' : List Bool}

theorem not_isSign_of_isCapital (hc : isCapital c) : ¬ isSign c := by
  simp only [isCapital, UInt8.le_iff_toNat_le] at hc
  rintro (rfl | rfl) <;> revert hc <;> decide

theorem not_isLowerOrDigit_of_isCapital (hc : isCapital c) : ¬ isLowerOrDigit c := by
  have hcode : 'A'.toUInt8.toNat = 65 ∧ 'Z'.toUInt8.toNat = 90 ∧ 'a'.toUInt8.toNat = 97 ∧
      'z'.toUInt8.toNat = 122 ∧ '0'.toUInt8.toNat = 48 ∧ '9'.toUInt8.toNat = 57 := by decide
  simp only [isCapital, isLowerOrDigit, UInt8.le_iff_toNat_le] at hc ⊢
  omega

/-! ### Texts with marked line breaks -/

/-- The text with line breaks before the marked bytes. -/
def marked : List Bool → Text → Text
  | mark :: marks, c :: text =>
      (if mark then lineBreak else []) ++ spacedByte c ++ marked marks text
  | _, _ => []

def MarksCapitals (marks : List Bool) (text : Text) : Prop :=
  List.Forall₂ (fun mark c => mark = true → isCapital c) marks text

/-- Which bytes `dump_event` breaks the line at, and `cap` at the end of the text. -/
def breaks : Bool → Text → List Bool
  | _, [] => []
  | cap, c :: text => (isCapital c && !cap) :: breaks (dumpByte cap c).2 text

def capAfter (cap : Bool) (text : Text) : Bool := text.foldl (fun cap c => (dumpByte cap c).2) cap

theorem dumpByte_eq : (dumpByte cap c).1 =
    (if isCapital c && !cap then lineBreak else []) ++ spacedByte c := by
  by_cases hc : isCapital c
  · cases cap <;> simp [dumpByte, spacedByte, lineBreak, hc, not_isSign_of_isCapital hc]
  · by_cases hs : isSign c <;> simp [dumpByte, spacedByte, hc, hs]

theorem reformat_eq_marked : reformat cap text = marked (breaks cap text) text := by
  induction text generalizing cap with
  | nil => rfl
  | cons c text ih => rw [reformat, breaks, marked, dumpByte_eq, ih]

theorem marksCapitals_breaks : MarksCapitals (breaks cap text) text := by
  induction text generalizing cap with
  | nil => exact List.Forall₂.nil
  | cons c text ih =>
      refine List.Forall₂.cons (fun hmark => ?_) ih
      simp only [Bool.and_eq_true, decide_eq_true_eq] at hmark
      exact hmark.1

/-- Where two texts are marked differently one has a newline and the other a capital. -/
theorem marked_injective (hmarks : MarksCapitals marks text) (hmarks' : MarksCapitals marks' text)
    {end' : Text} (heq : marked marks text ++ end' = marked marks' text ++ end') :
    marks = marks' := by
  induction hmarks generalizing marks' with
  | nil =>
      cases hmarks'
      rfl
  | @cons mark c marks text hmark hmarks ih =>
      obtain - | ⟨hmark', hmarks'⟩ := hmarks'
      rename_i mark' marks'
      have hbyte : isCapital c → spacedByte c = [c] := fun hc =>
        if_neg (not_isSign_of_isCapital hc)
      have hnewline : isCapital c → newline ≠ c := by
        rintro hc rfl
        revert hc
        decide
      cases mark <;> cases mark' <;> simp only [marked, if_true, if_false, Bool.false_eq_true,
        List.nil_append, List.append_assoc] at heq
      · rw [ih hmarks' (List.append_cancel_left heq)]
      · rw [hbyte (hmark' rfl)] at heq
        exact absurd (List.head_eq_of_cons_eq heq).symm (hnewline (hmark' rfl))
      · rw [hbyte (hmark rfl)] at heq
        exact absurd (List.head_eq_of_cons_eq heq) (hnewline (hmark rfl))
      · rw [ih hmarks' (List.append_cancel_left (List.append_cancel_left heq))]

theorem marksCapitals_append (hleft : MarksCapitals marks left)
    (hright : MarksCapitals marks' right) : MarksCapitals (marks ++ marks') (left ++ right) :=
  List.rel_append hleft hright

theorem marksCapitals_none (text : Text) :
    MarksCapitals (List.replicate text.length false) text := by
  induction text with
  | nil => exact List.Forall₂.nil
  | cons c text ih => exact List.Forall₂.cons nofun ih

theorem marked_append (hlength : marks.length = left.length) :
    marked (marks ++ marks') (left ++ right) = marked marks left ++ marked marks' right := by
  induction marks generalizing left with
  | nil =>
      obtain rfl := List.length_eq_zero_iff.mp hlength.symm
      rfl
  | cons mark marks ih =>
      obtain ⟨c, left, rfl⟩ := List.exists_of_length_succ left hlength.symm
      simp only [List.cons_append, marked, List.append_assoc]
      rw [ih (Nat.succ.inj hlength)]

theorem marked_none (text : Text) :
    marked (List.replicate text.length false) text = spaced text := by
  induction text with
  | nil => rfl
  | cons c text ih =>
      rw [List.length_cons, List.replicate_succ, marked, ih, if_neg Bool.false_ne_true]
      rfl

/-! ### Where the line is broken -/

theorem length_breaks : (breaks cap text).length = text.length := by
  induction text generalizing cap with
  | nil => rfl
  | cons c text ih => rw [breaks, List.length_cons, ih, List.length_cons]

theorem breaks_append :
    breaks cap (left ++ right) = breaks cap left ++ breaks (capAfter cap left) right := by
  induction left generalizing cap with
  | nil => rfl
  | cons c left ih =>
      rw [List.cons_append, breaks, breaks, List.cons_append, ih]
      rfl

theorem cap_dumpByte (cap : Bool) (c : UInt8) : (dumpByte cap c).2 =
    if isCapital c then true else if isLowerOrDigit c then false else cap := by
  have hsign : isSign c → ¬ isLowerOrDigit c := by
    rintro (rfl | rfl) <;> decide
  by_cases hc : isCapital c
  · simp [dumpByte, hc]
  · by_cases hs : isSign c
    · simp [dumpByte, hc, hs, hsign hs]
    · simp [dumpByte, hc, hs]

/-- After a lower-case letter or a digit the first capital is broken at. -/
theorem breaks_false_iff :
    breaks false text = List.replicate text.length false ↔ ∀ c ∈ text, ¬ isCapital c := by
  induction text with
  | nil => exact iff_of_true rfl (List.forall_mem_nil _)
  | cons c text ih =>
      rw [breaks, List.length_cons, List.replicate_succ, List.cons.injEq, List.forall_mem_cons]
      by_cases hc : isCapital c
      · exact iff_of_false (by simp [hc]) (fun h => h.1 hc)
      · rw [cap_dumpByte, if_neg hc, ite_self, ih]
        simp [hc]

theorem capAfter_false (htext : ∀ c ∈ text, ¬ isCapital c) : capAfter false text = false := by
  induction text with
  | nil => rfl
  | cons c text ih =>
      obtain ⟨hc, htext⟩ := List.forall_mem_cons.mp htext
      rw [capAfter, List.foldl_cons, cap_dumpByte, if_neg hc, ite_self]
      exact ih htext

theorem capitalsFirst_cons : CapitalsFirst (c :: text) ↔
    (isLowerOrDigit c → ∀ d ∈ text, ¬ isCapital d) ∧ CapitalsFirst text := by
  rw [CapitalsFirst, List.pairwise_cons]
  exact and_congr_left' ⟨fun h hc d hd => h d hd hc, fun h d hd hc => h hc d hd⟩

/-- After a capital nothing is broken at until a lower-case letter or a digit. -/
theorem breaks_true_iff :
    breaks true text = List.replicate text.length false ↔ CapitalsFirst text := by
  induction text with
  | nil => exact iff_of_true rfl List.Pairwise.nil
  | cons c text ih =>
      rw [breaks, List.length_cons, List.replicate_succ, List.cons.injEq, capitalsFirst_cons,
        cap_dumpByte, Bool.not_true, Bool.and_false]
      by_cases hc : isCapital c
      · rw [if_pos hc, ih]
        simp [not_isLowerOrDigit_of_isCapital hc]
      · by_cases hlower : isLowerOrDigit c
        · rw [if_neg hc, if_pos hlower, breaks_false_iff]
          refine ⟨fun h => ⟨fun _ => h.2, ?_⟩, fun h => ⟨rfl, h.1 hlower⟩⟩
          exact List.pairwise_of_forall_mem_list fun _ _ d hd _ => h.2 d hd
        · rw [if_neg hc, if_neg hlower, ih]
          simp [hlower]

theorem capAfter_true (htext : CapitalsFirst text) :
    capAfter true text = false ↔ ∃ c ∈ text, isLowerOrDigit c := by
  induction text with
  | nil => exact iff_of_false nofun nofun
  | cons c text ih =>
      obtain ⟨hfirst, htext⟩ := capitalsFirst_cons.mp htext
      rw [capAfter, List.foldl_cons, cap_dumpByte, ← capAfter, List.exists_mem_cons_iff]
      by_cases hc : isCapital c
      · rw [if_pos hc, ih htext, or_iff_right (not_isLowerOrDigit_of_isCapital hc)]
      · by_cases hlower : isLowerOrDigit c
        · rw [if_neg hc, if_pos hlower]
          exact iff_of_true (capAfter_false (hfirst hlower)) (Or.inl hlower)
        · rw [if_neg hc, if_neg hlower, ih htext, or_iff_right hlower]

/-! ### Where the keys are -/

def keyMarks (fields : List Field) : List Bool :=
  fields.flatMap fun field =>
    false :: true :: List.replicate (field.text.length - 1) false

variable {field : Field} {fields : List Field} {event : Uevent} {terminated : Bool}

theorem exists_text_eq (field : Field) : ∃ c cs, isCapital c ∧ (∀ d ∈ cs, ¬ isLowerOrDigit d) ∧
    field.text = c :: (cs ++ '='.toUInt8 :: field.value) := by
  obtain ⟨c, hhead, hc⟩ := field.key_first
  obtain ⟨cs, hkey⟩ := List.head?_eq_some_iff.mp hhead
  refine ⟨c, cs, hc, fun d hd => ?_, by rw [Field.text, hkey, List.cons_append]⟩
  rcases field.key_chars d (hkey ▸ List.mem_cons_of_mem c hd) with hd | rfl
  · exact not_isLowerOrDigit_of_isCapital hd
  · decide

theorem capitalsFirst_append (hleft : ∀ c ∈ left, ¬ isLowerOrDigit c) :
    CapitalsFirst (left ++ right) ↔ CapitalsFirst right := by
  rw [CapitalsFirst, List.pairwise_append]
  refine ⟨fun h => h.2.1, fun h => ⟨?_, h, fun c hc _ _ hlower => absurd hlower (hleft c hc)⟩⟩
  exact List.pairwise_of_forall_mem_list fun c hc _ _ hlower => absurd hlower (hleft c hc)

theorem breaks_field (cap : Bool) (field : Field) :
    breaks cap (0 :: field.text) =
        false :: true :: List.replicate (field.text.length - 1) false ↔
      cap = false ∧ CapitalsFirst field.value := by
  obtain ⟨c, cs, hc, hcs, htext⟩ := exists_text_eq field
  have htail : breaks true (cs ++ '='.toUInt8 :: field.value) =
      List.replicate (cs ++ '='.toUInt8 :: field.value).length false ↔
        CapitalsFirst field.value := by
    rw [breaks_true_iff, capitalsFirst_append hcs, capitalsFirst_cons]
    exact and_iff_right (fun hlower => absurd hlower (by decide))
  have hnul : (dumpByte cap 0).2 = cap := by cases cap <;> rfl
  rw [htext, breaks, breaks, hnul, cap_dumpByte, if_pos hc, List.length_cons,
    Nat.add_sub_cancel, List.cons.injEq, List.cons.injEq, htail]
  have hzero : ¬ isCapital 0 := by decide
  cases cap <;> simp [hc, hzero]

theorem capAfter_field (hvalue : CapitalsFirst field.value) (cap : Bool) :
    capAfter cap (0 :: field.text) = false ↔ ∃ c ∈ field.value, isLowerOrDigit c := by
  obtain ⟨c, cs, hc, hcs, htext⟩ := exists_text_eq field
  have hsign : ¬ isLowerOrDigit '='.toUInt8 := by decide
  have htail : CapitalsFirst (cs ++ '='.toUInt8 :: field.value) := by
    rw [capitalsFirst_append hcs, capitalsFirst_cons]
    exact ⟨fun hlower => absurd hlower hsign, hvalue⟩
  have hcap : capAfter cap (0 :: field.text) =
      capAfter true (cs ++ '='.toUInt8 :: field.value) := by
    rw [htext, capAfter, List.foldl_cons, List.foldl_cons, cap_dumpByte _ c, if_pos hc]
    rfl
  rw [hcap, capAfter_true htail]
  constructor
  · rintro ⟨d, hd, hlower⟩
    rcases List.mem_append.mp hd with hd | hd
    · exact absurd hlower (hcs d hd)
    · rcases List.mem_cons.mp hd with rfl | hd
      · exact absurd hlower hsign
      · exact ⟨d, hd, hlower⟩
  · rintro ⟨d, hd, hlower⟩
    exact ⟨d, List.mem_append_right cs (List.mem_cons_of_mem _ hd), hlower⟩

/-- The line is broken at the keys exactly when each field is begun without a capital before it and
its value has no break. -/
theorem breaks_fieldsText_iff : breaks cap (fieldsText fields) = keyMarks fields ↔
    (fields ≠ [] → cap = false) ∧ (∀ field ∈ fields, CapitalsFirst field.value) ∧
      ∀ field ∈ fields.dropLast, ∃ c ∈ field.value, isLowerOrDigit c := by
  induction fields generalizing cap with
  | nil => exact iff_of_true rfl ⟨absurd rfl, List.forall_mem_nil _, List.forall_mem_nil _⟩
  | cons field fields ih =>
      have hlength : (breaks cap (0 :: field.text)).length =
          (false :: true :: List.replicate (field.text.length - 1) false).length := by
        obtain ⟨c, cs, _, _, htext⟩ := exists_text_eq field
        simp [length_breaks, htext]
      rw [fieldsText, keyMarks, List.flatMap_cons, List.flatMap_cons, ← fieldsText, ← keyMarks,
        breaks_append, List.append_eq_append_iff_of_size_eq_left hlength, breaks_field, ih,
        List.forall_mem_cons]
      by_cases hvalue : CapitalsFirst field.value
      · rw [capAfter_field hvalue]
        cases fields with
        | nil => simp [hvalue]
        | cons next fields =>
            rw [List.dropLast_cons_cons, List.forall_mem_cons (a := field)]
            simp only [ne_eq, reduceCtorEq, not_false_eq_true, forall_const, hvalue, true_and,
              and_true]
            exact and_congr_right fun _ => and_left_comm
      · exact iff_of_false (fun h => hvalue h.1.2) (fun h => hvalue h.2.1.1)

/-! ### The whole message -/

theorem forall_header_iff :
    (∀ c ∈ event.header, ¬ isCapital c) ↔ ∀ c ∈ event.path, ¬ isCapital c := by
  have hsign : ¬ isCapital '@'.toUInt8 := by decide
  have hlower : ∀ c ∈ event.action, ¬ isCapital c := fun c hc hcapital =>
    not_isLowerOrDigit_of_isCapital hcapital (Or.inl (event.action_lower c hc))
  rw [Uevent.header, List.forall_mem_append, List.forall_mem_cons, and_iff_right hsign,
    and_iff_right hlower]

def messageMarks (event : Uevent) (terminated : Bool) : List Bool :=
  List.replicate event.header.length false ++ keyMarks event.fields ++
    if terminated then [false] else []

theorem breaks_message_iff : breaks false (event.message terminated) =
    messageMarks event terminated ↔ BreaksAtKeys event := by
  have hlast : ∀ cap, breaks cap (if terminated then [0] else []) =
      if terminated then [false] else [] := by
    intro cap
    cases terminated <;> rfl
  have hheader : (breaks false event.header).length =
      (List.replicate event.header.length false).length := by
    rw [length_breaks, List.length_replicate]
  rw [Uevent.message, messageMarks, breaks_append, hlast, List.append_left_inj, breaks_append,
    List.append_eq_append_iff_of_size_eq_left hheader, breaks_false_iff, BreaksAtKeys,
    forall_header_iff]
  refine and_congr_right fun hpath => ?_
  rw [capAfter_false (forall_header_iff.mpr hpath), breaks_fieldsText_iff]
  exact and_iff_right (fun _ => rfl)

theorem marked_field (field : Field) :
    marked (false :: true :: List.replicate (field.text.length - 1) false) (0 :: field.text) =
      0 :: lineBreak ++ spaced field.text := by
  obtain ⟨c, cs, _, _, htext⟩ := exists_text_eq field
  rw [htext, List.length_cons, Nat.add_sub_cancel, marked, marked, marked_none]
  rfl

theorem marksCapitals_field (field : Field) :
    MarksCapitals (false :: true :: List.replicate (field.text.length - 1) false)
      (0 :: field.text) := by
  obtain ⟨c, cs, hc, _, htext⟩ := exists_text_eq field
  rw [htext, List.length_cons, Nat.add_sub_cancel]
  exact List.Forall₂.cons nofun (List.Forall₂.cons (fun _ => hc) (marksCapitals_none _))

theorem marksCapitals_keyMarks (fields : List Field) :
    MarksCapitals (keyMarks fields) (fieldsText fields) := by
  induction fields with
  | nil => exact List.Forall₂.nil
  | cons field fields ih => exact marksCapitals_append (marksCapitals_field field) ih

theorem marked_keyMarks (fields : List Field) : marked (keyMarks fields) (fieldsText fields) =
    fields.flatMap fun field => 0 :: lineBreak ++ spaced field.text := by
  induction fields with
  | nil => rfl
  | cons field fields ih =>
      rw [keyMarks, fieldsText, List.flatMap_cons, List.flatMap_cons, ← keyMarks, ← fieldsText,
        marked_append (marksCapitals_field field).length_eq, marked_field, ih, List.flatMap_cons]

theorem marksCapitals_messageMarks (event : Uevent) (terminated : Bool) :
    MarksCapitals (messageMarks event terminated) (event.message terminated) := by
  refine marksCapitals_append (marksCapitals_append (marksCapitals_none event.header)
    (marksCapitals_keyMarks event.fields)) ?_
  cases terminated
  · exact List.Forall₂.nil
  · exact List.Forall₂.cons nofun List.Forall₂.nil

theorem layout_eq (event : Uevent) (terminated : Bool) : event.layout terminated =
    marked (messageMarks event terminated) (event.message terminated) ++ [newline, newline] := by
  have hlast : marked (if terminated then [false] else []) (if terminated then [0] else []) =
      if terminated then [0] else [] := by cases terminated <;> rfl
  have hinit := marksCapitals_append (marksCapitals_none event.header)
    (marksCapitals_keyMarks event.fields)
  rw [Uevent.layout, messageMarks, Uevent.message, marked_append hinit.length_eq,
    marked_append (marksCapitals_none event.header).length_eq, marked_none, marked_keyMarks, hlast]

/-- The event is laid out as in the README exactly when its path and values have capitals only where
the viewer does not take one for a key, and no value hides the key after it. -/
theorem laidOut_iff (event : Uevent) (terminated : Bool) :
    LaidOut event terminated ↔ BreaksAtKeys event := by
  have hlength : ((event.message terminated).length : Int) ≤ (event.message terminated).length :=
    Int.le_refl _
  have hdump : ∀ fd, dumpEvent (event.message terminated) (event.message terminated).length
      (some fd) = .ok (some (fd ++ (marked (breaks false (event.message terminated))
        (event.message terminated) ++ [newline, newline]))) := by
    intro fd
    rw [dumpEvent_eq hlength, Int.toNat_natCast, List.take_length, reformat_eq_marked]
  refine Iff.trans ?_ (@breaks_message_iff event terminated)
  constructor
  · intro hlaid
    have heq := Option.some.inj (Except.ok.inj ((hdump []).symm.trans (hlaid [])))
    rw [layout_eq] at heq
    exact marked_injective marksCapitals_breaks (marksCapitals_messageMarks event terminated) heq
  · intro hbreaks fd
    rw [hdump, hbreaks, layout_eq]

def ascii (s : String) : Text := s.toList.map Char.toUInt8

def ttyUsb : Uevent where
  action := ascii "add"
  path := ascii "/usb"
  fields := [{
    key := ascii "DEVNAME"
    value := ascii "ttyUSB0"
    key_first := ⟨'D'.toUInt8, rfl, by decide⟩
    key_chars := by decide +kernel
    value_noNul := by decide }]
  action_lower := by decide +kernel
  path_noNul := by decide

/-- The name of the device is broken as if `USB0` were a key. -/
theorem ttyUsb_not_laidOut :
    dumpEvent (ttyUsb.message true) (ttyUsb.message true).length (some []) =
      .ok (some (ascii "add @ /usb\x00\n  DEVNAME = tty\n  USB0\x00\n\n")) ∧
    ttyUsb.layout true = ascii "add @ /usb\x00\n  DEVNAME = ttyUSB0\x00\n\n" ∧
    ¬ LaidOut ttyUsb true := by
  have hdump : dumpEvent (ttyUsb.message true) (ttyUsb.message true).length (some []) =
      .ok (some (ascii "add @ /usb\x00\n  DEVNAME = tty\n  USB0\x00\n\n")) := by decide
  have hlayout : ttyUsb.layout true = ascii "add @ /usb\x00\n  DEVNAME = ttyUSB0\x00\n\n" := by
    decide
  refine ⟨hdump, hlayout, fun hlaid => ?_⟩
  have heq := Option.some.inj (Except.ok.inj (hdump.symm.trans (hlaid [])))
  rw [hlayout] at heq
  revert heq
  decide

end CodeSlices.UeventView
