import Mathlib.Data.List.Basic

/-!
# Framing

`read-payload` and `sendquery` of `lisp/adb.rkt`. A frame is a length, four hexadecimal digits, and
that many bytes. Both functions count characters where the wire counts bytes. Ports of text are
lists of bytes here; a byte that begins no character is read as U+FFFD. `string->number` is modelled
on hexadecimal digits; every other text of a length is an error.
-/

namespace CodeSlices.Adb

inductive RacketError
  | contract
  deriving DecidableEq

/-- `printf("%0{len}x", n)` -/
def numberToHexstring (n len : Nat) : Except RacketError (List Char) :=
  let hex := Nat.toDigits 16 n
  if hex.length ≤ len then .ok (List.replicate (len - hex.length) '0' ++ hex)
  else .error .contract

def hexDigit (c : Char) : Option Nat :=
  if '0' ≤ c ∧ c ≤ '9' then some (c.toNat - '0'.toNat)
  else if 'a' ≤ c ∧ c ≤ 'f' then some (c.toNat - 'a'.toNat + 10)
  else if 'A' ≤ c ∧ c ≤ 'F' then some (c.toNat - 'A'.toNat + 10)
  else none

/-- `(string->number str 16)` -/
def stringToNumber (str : List Char) : Option Nat :=
  if str = [] then none else str.foldlM (fun n c => (hexDigit c).map (16 * n + ·)) 0

def utf8Bytes (text : List Char) : List UInt8 := text.flatMap String.utf8EncodeChar

/-- The next character of a port and what is left. -/
def readChar : List UInt8 → Option (Char × List UInt8)
  | [] => none
  | byte :: fd =>
      match (byte :: fd).toByteArray.utf8DecodeChar? 0 with
      | some c => some (c, (byte :: fd).drop c.utf8Size)
      | none => some (Char.ofNat 0xFFFD, fd)

def readChars : Nat → List UInt8 → List Char × List UInt8
  | 0, fd => ([], fd)
  | n + 1, fd =>
      match readChar fd with
      | none => ([], [])
      | some (c, fd) =>
          let (cs, fd) := readChars n fd
          (c :: cs, fd)

/-- `(read-string n fd)`, which is eof at the end. -/
def readString (n : Nat) (fd : List UInt8) : Option (List Char) × List UInt8 :=
  if n = 0 then (some [], fd)
  else if fd = [] then (none, [])
  else
    let (cs, fd) := readChars n fd
    (some cs, fd)

def readPayload (fd : List UInt8) :
    Except RacketError (Nat × Option (List Char) × List UInt8) :=
  match readString 4 fd with
  | (none, _) => .error .contract
  | (some hexstr, fd) =>
      match stringToNumber hexstr with
      | none => .error .contract
      | some len =>
          let (pld, fd) := readString len fd
          .ok (len, pld, fd)

/-- What is written to the port. -/
def sendquery (cmd : List Char) : Except RacketError (List UInt8) := do
  let len ← numberToHexstring cmd.length 4
  .ok (utf8Bytes len ++ utf8Bytes cmd)

/-- The bytes are a text in the wire format. -/
def IsFrame (text : List Char) (frame : List UInt8) : Prop :=
  ∃ digits : List Char, digits.length = 4 ∧
    stringToNumber digits = some (utf8Bytes text).length ∧
    frame = utf8Bytes digits ++ utf8Bytes text

def Sends (text : List Char) : Prop := ∃ frame, sendquery text = .ok frame ∧ IsFrame text frame

/-- A frame of the text is read back, whatever follows it, and what follows is left. -/
def Reads (text : List Char) : Prop := ∀ frame rest, IsFrame text frame →
  readPayload (frame ++ rest) = .ok ((utf8Bytes text).length, some text, rest)

def IsAscii (text : List Char) : Prop := ∀ c ∈ text, c.toNat < 128

instance (text : List Char) : Decidable (IsAscii text) := List.decidableBAll _ _

variable {text : List Char} {c : Char}

theorem readChar_utf8EncodeChar (c : Char) (fd : List UInt8) :
    readChar (String.utf8EncodeChar c ++ fd) = some (c, fd) := by
  obtain ⟨byte, bytes, hbytes⟩ := List.exists_cons_of_ne_nil (String.utf8EncodeChar_ne_nil (c := c))
  have hdecode : (byte :: (bytes ++ fd)).toByteArray.utf8DecodeChar? 0 = some c := by
    rw [← List.cons_append, ← hbytes, List.toByteArray_append]
    exact ByteArray.utf8DecodeChar?_utf8EncodeChar_append
  rw [hbytes, List.cons_append, readChar, hdecode]
  dsimp only
  rw [← List.cons_append, ← hbytes, ← String.length_utf8EncodeChar, List.drop_left]

theorem utf8Bytes_cons : utf8Bytes (c :: text) = String.utf8EncodeChar c ++ utf8Bytes text := rfl

/-- The characters of a text are read back from its bytes, and then those of what follows. -/
theorem readChars_utf8Bytes (text : List Char) (n : Nat) (fd : List UInt8) :
    readChars (text.length + n) (utf8Bytes text ++ fd) =
      (text ++ (readChars n fd).1, (readChars n fd).2) := by
  induction text with
  | nil => rw [List.length_nil, Nat.zero_add]; rfl
  | cons c text ih =>
      rw [utf8Bytes_cons, List.length_cons, Nat.add_right_comm, readChars, List.append_assoc,
        readChar_utf8EncodeChar]
      dsimp only
      rw [ih]
      rfl

theorem readString_utf8Bytes (text : List Char) (fd : List UInt8) :
    readString text.length (utf8Bytes text ++ fd) = (some text, fd) := by
  cases text with
  | nil => rfl
  | cons c text =>
      have hbytes : utf8Bytes (c :: text) ++ fd ≠ [] := by
        simp [utf8Bytes_cons, String.utf8EncodeChar_ne_nil]
      have hread := readChars_utf8Bytes (c :: text) 0 fd
      rw [readChars, List.append_nil, Nat.add_zero] at hread
      have hlength : (c :: text).length ≠ 0 := Nat.succ_ne_zero _
      rw [readString, if_neg hlength, if_neg hbytes, hread]

theorem utf8Bytes_injective {left right : List Char} (hlength : left.length = right.length)
    {fd fd' : List UInt8} (h : utf8Bytes left ++ fd = utf8Bytes right ++ fd') : left = right := by
  have hleft := readString_utf8Bytes left fd
  rw [h, hlength, readString_utf8Bytes] at hleft
  exact (Option.some.inj (Prod.mk.inj hleft).1).symm

theorem utf8Size_eq_one_iff : c.utf8Size = 1 ↔ c.toNat < 128 := by
  rw [Char.utf8Size_eq_one_iff, UInt32.le_iff_toNat_le]
  exact Nat.lt_succ_iff.symm

theorem length_utf8Bytes_cons :
    (utf8Bytes (c :: text)).length = c.utf8Size + (utf8Bytes text).length := by
  rw [utf8Bytes_cons, List.length_append, String.length_utf8EncodeChar]

theorem length_le_length_utf8Bytes (text : List Char) : text.length ≤ (utf8Bytes text).length := by
  induction text with
  | nil => exact Nat.le_refl _
  | cons c text ih =>
      have hsize := c.utf8Size_pos
      rw [length_utf8Bytes_cons, List.length_cons]
      omega

/-- There are as many bytes as characters in ASCII texts only. -/
theorem length_utf8Bytes_eq_iff (text : List Char) :
    (utf8Bytes text).length = text.length ↔ IsAscii text := by
  induction text with
  | nil => exact iff_of_true rfl (List.forall_mem_nil _)
  | cons c text ih =>
      have hsize := c.utf8Size_pos
      have hle := length_le_length_utf8Bytes text
      rw [length_utf8Bytes_cons, List.length_cons, IsAscii, List.forall_mem_cons,
        ← utf8Size_eq_one_iff, ← IsAscii, ← ih]
      omega

theorem hexDigit_digitChar {d : Nat} (hd : d < 16) : hexDigit d.digitChar = some d := by
  have hall : ∀ d < 16, hexDigit d.digitChar = some d := by decide
  exact hall d hd

theorem foldlM_toDigits (n : Nat) :
    (Nat.toDigits 16 n).foldlM (fun n c => (hexDigit c).map (16 * n + ·)) 0 = some n := by
  induction n using Nat.strongRecOn with
  | _ n ih =>
      by_cases hn : n < 16
      · rw [Nat.toDigits_of_lt_base hn]
        simp [hexDigit_digitChar hn]
      · rw [Nat.toDigits_of_base_le (by decide) (Nat.le_of_not_lt hn), List.foldlM_append,
          ih (n / 16) (by omega)]
        simp [hexDigit_digitChar (Nat.mod_lt n (by decide : 0 < 16))]
        omega

theorem foldlM_zeros (k : Nat) :
    (List.replicate k '0').foldlM (fun n c => (hexDigit c).map (16 * n + ·)) 0 = some 0 := by
  induction k with
  | zero => rfl
  | succ k ih => exact ih

theorem numberToHexstring_eq {n : Nat} (hn : n < 65536) : ∃ digits, digits.length = 4 ∧
    numberToHexstring n 4 = .ok digits ∧ stringToNumber digits = some n := by
  have hlength : (Nat.toDigits 16 n).length ≤ 4 :=
    (Nat.length_toDigits_le_iff (by decide) (by decide)).mpr hn
  refine ⟨_, ?_, if_pos hlength, ?_⟩
  · rw [List.length_append, List.length_replicate]
    omega
  · have hne : List.replicate (4 - (Nat.toDigits 16 n).length) '0' ++ Nat.toDigits 16 n ≠ [] :=
      List.append_ne_nil_of_right_ne_nil _ Nat.toDigits_ne_nil
    rw [stringToNumber, if_neg hne, List.foldlM_append, foldlM_zeros]
    exact foldlM_toDigits n

theorem sends_iff (htext : (utf8Bytes text).length ≤ 65535) : Sends text ↔ IsAscii text := by
  have hle := length_le_length_utf8Bytes text
  obtain ⟨digits, hlength, hhex, hvalue⟩ := numberToHexstring_eq (n := text.length) (by omega)
  have hsend : sendquery text = .ok (utf8Bytes digits ++ utf8Bytes text) := by
    rw [sendquery, hhex]
    rfl
  rw [← length_utf8Bytes_eq_iff]
  constructor
  · rintro ⟨frame, hframe, digits', hlength', hvalue', rfl⟩
    obtain rfl := utf8Bytes_injective (hlength.trans hlength'.symm)
      (Except.ok.inj (hsend.symm.trans hframe))
    exact Option.some.inj (hvalue'.symm.trans hvalue)
  · intro hbytes
    exact ⟨_, hsend, digits, hlength, hbytes ▸ hvalue, rfl⟩

theorem readPayload_of_digits {digits : List Char} {n : Nat} (hlength : digits.length = 4)
    (hvalue : stringToNumber digits = some n) (fd : List UInt8) :
    readPayload (utf8Bytes digits ++ fd) = .ok (n, readString n fd) := by
  rw [readPayload, ← hlength, readString_utf8Bytes]
  dsimp only
  rw [hvalue]

/-- Past a text that is not ASCII the reader goes on into what follows. -/
theorem readString_past {k : Nat} (hbytes : (utf8Bytes text).length = text.length + (k + 1)) :
    (readString (utf8Bytes text).length (utf8Bytes text ++ [65])).2 = [] := by
  have hlast : (readChars (k + 1) [65]).2 = [] := by cases k <;> rfl
  have hlength : text.length + (k + 1) ≠ 0 := Nat.succ_ne_zero _
  have hne : utf8Bytes text ++ [65] ≠ [] := List.append_ne_nil_of_right_ne_nil _ (by decide)
  rw [hbytes, readString, if_neg hlength, if_neg hne, readChars_utf8Bytes]
  exact hlast

theorem reads_iff (htext : (utf8Bytes text).length ≤ 65535) : Reads text ↔ IsAscii text := by
  rw [← length_utf8Bytes_eq_iff]
  constructor
  · intro hreads
    obtain ⟨digits, hlength, _, hvalue⟩ := numberToHexstring_eq (n := (utf8Bytes text).length)
      (by omega)
    have hread := hreads _ [65] ⟨digits, hlength, hvalue, rfl⟩
    rw [List.append_assoc, readPayload_of_digits hlength hvalue] at hread
    have hleft := congrArg Prod.snd (Prod.mk.inj (Except.ok.inj hread)).2
    by_contra hne
    obtain ⟨k, hk⟩ := Nat.exists_eq_add_of_lt
      (Nat.lt_of_le_of_ne (length_le_length_utf8Bytes text) (Ne.symm hne))
    cases (readString_past hk).symm.trans hleft
  · rintro hbytes frame rest ⟨digits, hlength, hvalue, rfl⟩
    rw [List.append_assoc, readPayload_of_digits hlength hvalue, hbytes, readString_utf8Bytes]

/-- Both functions follow the wire format exactly on the texts of ASCII characters. -/
theorem framing_iff (htext : (utf8Bytes text).length ≤ 65535) :
    Sends text ∧ Reads text ↔ IsAscii text := by
  rw [sends_iff htext, reads_iff htext, and_self_iff]

theorem framing_version : Sends "host:version".toList ∧ Reads "host:version".toList :=
  (framing_iff (by decide)).mpr (by decide)

/-- Two bytes are announced as one. -/
theorem framing_eAcute : (utf8Bytes [Char.ofNat 0xE9]).length = 2 ∧
    sendquery [Char.ofNat 0xE9] = .ok [0x30, 0x30, 0x30, 0x31, 0xC3, 0xA9] ∧
    readPayload [0x30, 0x30, 0x30, 0x32, 0xC3, 0xA9, 0x4F, 0x4B, 0x41, 0x59] =
      .ok (2, some [Char.ofNat 0xE9, 'O'], [0x4B, 0x41, 0x59]) ∧
    ¬ Sends [Char.ofNat 0xE9] ∧ ¬ Reads [Char.ofNat 0xE9] := by
  have hascii : ¬ IsAscii [Char.ofNat 0xE9] := by
    rw [IsAscii, List.forall_mem_singleton]
    decide
  exact ⟨rfl, rfl, rfl, fun h => hascii ((sends_iff (by decide)).mp h),
    fun h => hascii ((reads_iff (by decide)).mp h)⟩

end CodeSlices.Adb
