import Mathlib.Data.List.Basic
import CodeSlices.Lib.Except

/-!
# Uevents as text

`dump_event` of `tools/uevent-view/main.c`. A stream is what was written to it so far. Besides the
blanks and line breaks it writes the bytes of the event, each once and in their order.
-/

namespace CodeSlices.UeventView

inductive Fault
  | outOfBounds
  deriving DecidableEq

abbrev Text := List UInt8

def isCapital (c : UInt8) : Prop := 'A'.toUInt8 ≤ c ∧ c ≤ 'Z'.toUInt8

def isLowerOrDigit (c : UInt8) : Prop :=
  ('a'.toUInt8 ≤ c ∧ c ≤ 'z'.toUInt8) ∨ ('0'.toUInt8 ≤ c ∧ c ≤ '9'.toUInt8)

def isSign (c : UInt8) : Prop := c = '='.toUInt8 ∨ c = '@'.toUInt8

instance (c : UInt8) : Decidable (isCapital c) := inferInstanceAs (Decidable (_ ∧ _))

instance (c : UInt8) : Decidable (isLowerOrDigit c) := inferInstanceAs (Decidable (_ ∨ _))

instance (c : UInt8) : Decidable (isSign c) := inferInstanceAs (Decidable (_ ∨ _))

def space : UInt8 := ' '.toUInt8

def newline : UInt8 := '\n'.toUInt8

/-- What one round of the loop writes for a byte, and `cap` after it. -/
def dumpByte (cap : Bool) (c : UInt8) : Text × Bool :=
  if isCapital c then ((if cap then [] else [newline, space, space]) ++ [c], true)
  else if isSign c then ([space, c, space], cap)
  else ([c], if isLowerOrDigit c then false else cap)

/-- The loop from `i` on, with the number of rounds that are left. -/
def dumpLoop (buf : Text) : Nat → Nat → Bool → Text → Except Fault Text
  | 0, _, _, fd => .ok fd
  | n + 1, i, cap, fd =>
      match buf[i]? with
      | none => .error .outOfBounds
      | some c =>
          let (text, cap) := dumpByte cap c
          dumpLoop buf n (i + 1) cap (fd ++ text)

def dumpEvent (buf : Text) (len : Int) (fd : Option Text) : Except Fault (Option Text) :=
  match fd with
  | none => .ok none
  | some fd => do
      let fd ← dumpLoop buf len.toNat 0 false fd
      .ok (some (fd ++ [newline, newline]))

/-! ### The text of a buffer -/

def reformat : Bool → Text → Text
  | _, [] => []
  | cap, c :: text => (dumpByte cap c).1 ++ reformat (dumpByte cap c).2 text

variable {buf fd : Text} {cap : Bool} {c : UInt8}

theorem dumpLoop_eq {n i : Nat} (hn : i + n ≤ buf.length) :
    dumpLoop buf n i cap fd = .ok (fd ++ reformat cap ((buf.drop i).take n)) := by
  induction n generalizing i cap fd with
  | zero => rw [dumpLoop, List.take_zero, reformat, List.append_nil]
  | succ n ih =>
      have hi : i < buf.length := by omega
      rw [dumpLoop, List.getElem?_eq_getElem hi, List.drop_eq_getElem_cons hi, List.take_succ_cons,
        reformat]
      dsimp only
      rw [ih (by omega), List.append_assoc]

theorem dumpEvent_eq {len : Int} (hlen : len ≤ buf.length) :
    dumpEvent buf len (some fd) =
      .ok (some (fd ++ (reformat false (buf.take len.toNat) ++ [newline, newline]))) := by
  rw [dumpEvent, dumpLoop_eq (by omega), ok_bind, List.drop_zero, List.append_assoc]

/-! ### No byte is lost -/

def visible (text : Text) : Text := text.filter fun c => c != space && c != newline

theorem visible_append (left right : Text) :
    visible (left ++ right) = visible left ++ visible right :=
  List.filter_append left right

theorem visible_dumpByte (cap : Bool) (c : UInt8) : visible (dumpByte cap c).1 = visible [c] := by
  have hspace : visible [space] = [] := rfl
  have hbreak : visible [newline, space, space] = [] := rfl
  rw [dumpByte]
  split_ifs
  · rfl
  · rw [visible_append, hbreak, List.nil_append]
  · have hsign : [space, c, space] = [space] ++ [c] ++ [space] := rfl
    rw [hsign, visible_append, visible_append, hspace, List.nil_append, List.append_nil]
  · rfl
  · rfl

theorem visible_reformat (cap : Bool) (text : Text) :
    visible (reformat cap text) = visible text := by
  induction text generalizing cap with
  | nil => rfl
  | cons c text ih =>
      have hcons : c :: text = [c] ++ text := rfl
      rw [reformat, visible_append, visible_dumpByte, ih, hcons, visible_append]

/-- Up to spaces and newlines the first `len` bytes of the buffer are written as they are. -/
theorem visible_dumpEvent (buf fd : Text) (len : Int) (hlen : len ≤ buf.length) :
    ∃ text, dumpEvent buf len (some fd) = .ok (some (fd ++ text)) ∧
      visible text = visible (buf.take len.toNat) := by
  refine ⟨_, dumpEvent_eq hlen, ?_⟩
  have hend : visible [newline, newline] = [] := rfl
  rw [visible_append, visible_reformat, hend, List.append_nil]

theorem visible_dumpEvent_partOfBuffer : ∃ text,
    dumpEvent [65, 61, 0, 10] 3 (some []) = .ok (some ([] ++ text)) ∧
      visible text = visible [65, 61, 0] :=
  visible_dumpEvent [65, 61, 0, 10] [] 3 (by decide)

end CodeSlices.UeventView
