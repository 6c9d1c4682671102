import Mathlib.Data.Option.Basic

/-!
# Lua string literals

How Lua reads a short string literal, as far as all its versions since 5.1 agree: what is in it, and
what follows it. An escape is a letter, a quote, a backslash or up to three decimal digits.
-/

namespace CodeSlices.LuaLiteral

inductive Lexer
  | text
  | escape
  | digits (value count : Nat)

inductive Move
  | fail
  | stop (out : List UInt8)
  | go (out : List UInt8) (next : Lexer)

def isDigit (c : UInt8) : Bool := 48 ≤ c && c ≤ 57

def digit (c : UInt8) : Nat := c.toNat - 48

/-- What `\a` and the like stand for. -/
def named : List (UInt8 × UInt8) :=
  [(97, 7), (98, 8), (102, 12), (110, 10), (114, 13), (116, 9), (118, 11), (92, 92), (34, 34),
    (39, 39), (10, 10)]

def textMove (del c : UInt8) : Move :=
  if c = del then .stop []
  else if c = 92 then .go [] .escape
  else if c = 10 ∨ c = 13 then .fail
  else .go [c] .text

def Move.emit (out : List UInt8) : Move → Move
  | fail => fail
  | stop out' => stop (out ++ out')
  | go out' next => go (out ++ out') next

def move (del : UInt8) : Lexer → UInt8 → Move
  | .text, c => textMove del c
  | .escape, c =>
      if isDigit c then .go [] (.digits (digit c) 1)
      else match named.lookup c with
        | none => .fail
        | some b => .go [b] .text
  | .digits value count, c =>
      if count < 3 ∧ isDigit c then .go [] (.digits (10 * value + digit c) (count + 1))
      else if 255 < value then .fail
      else (textMove del c).emit [UInt8.ofNat value]

/-- What is read up to the delimiter, and the rest. -/
def lex (del : UInt8) : Lexer → List UInt8 → Option (List UInt8 × List UInt8)
  | _, [] => none
  | state, c :: rest =>
      match move del state c with
      | .fail => none
      | .stop out => some (out, rest)
      | .go out next => (lex del next rest).map fun p => (out ++ p.1, p.2)

def readLiteral : List UInt8 → Option (List UInt8 × List UInt8)
  | [] => none
  | q :: rest => if q = 34 ∨ q = 39 then lex q .text rest else none

variable {del c : UInt8} {rest : List UInt8} {value count : Nat}

theorem lex_delimiter (del : UInt8) (rest : List UInt8) :
    lex del .text (del :: rest) = some ([], rest) := by
  rw [lex, move, textMove, if_pos rfl]

theorem lex_plain (hdel : c ≠ del) (hc : c ≠ 92 ∧ c ≠ 10 ∧ c ≠ 13) (rest : List UInt8) :
    lex del .text (c :: rest) = (lex del .text rest).map fun p => (c :: p.1, p.2) := by
  rw [lex, move, textMove, if_neg hdel, if_neg hc.1, if_neg (not_or.mpr hc.2)]
  rfl

theorem map_nil_append (x : Option (List UInt8 × List UInt8)) :
    (x.map fun p => ([] ++ p.1, p.2)) = x := by
  cases x <;> rfl

theorem lex_escape (hdel : 92 ≠ del) (rest : List UInt8) :
    lex del .text (92 :: rest) = lex del .escape rest := by
  rw [lex, move, textMove, if_neg hdel, if_pos rfl]
  exact map_nil_append _

theorem lex_named {b : UInt8} (hnamed : named.lookup c = some b) (hc : isDigit c = false)
    (rest : List UInt8) :
    lex del .escape (c :: rest) = (lex del .text rest).map fun p => (b :: p.1, p.2) := by
  rw [lex, move, hc, if_neg Bool.false_ne_true, hnamed]
  rfl

theorem lex_first_digit (hc : isDigit c) (rest : List UInt8) :
    lex del .escape (c :: rest) = lex del (.digits (digit c) 1) rest := by
  rw [lex, move, if_pos hc]
  exact map_nil_append _

theorem lex_next_digit (hcount : count < 3) (hc : isDigit c) (rest : List UInt8) :
    lex del (.digits value count) (c :: rest) =
      lex del (.digits (10 * value + digit c) (count + 1)) rest := by
  rw [lex, move, if_pos ⟨hcount, hc⟩]
  exact map_nil_append _

/-- Behind its last digit a decimal escape is a byte, and the text goes on. -/
theorem lex_digits_end (hend : ¬ (count < 3 ∧ rest.head?.any isDigit)) (hvalue : value ≤ 255) :
    lex del (.digits value count) rest =
      (lex del .text rest).map fun p => (UInt8.ofNat value :: p.1, p.2) := by
  cases rest with
  | nil => rfl
  | cons c rest =>
      have hc : ¬ (count < 3 ∧ isDigit c = true) := hend
      rw [lex, move, if_neg hc, if_neg (Nat.not_lt.mpr hvalue), lex, move]
      cases textMove del c with
      | fail => rfl
      | stop out => rfl
      | go out next =>
          simp only [Move.emit, Option.map_map]
          rfl

end CodeSlices.LuaLiteral
