import CodeSlices.Lib.LuaLiteral

/-!
# Quoted strings

`escape` and `smartQuote` of `lua/inspect.lua`, on the bytes of a string, and that what they write
is a Lua literal for this string.
-/

namespace CodeSlices.Inspect

open LuaLiteral

/-- `gsub` with a pattern for one character and the one behind it, which is not replaced. -/
def gsub (repl : UInt8 → Option UInt8 → List UInt8) : List UInt8 → List UInt8
  | [] => []
  | c :: rest => repl c rest.head? ++ gsub repl rest

/-- `%c`. -/
def isControl (c : UInt8) : Bool := c < 32 || c = 127

/-- The letters of `"\\a"` to `"\\v"`. -/
def shortNames : List (UInt8 × UInt8) :=
  [(7, 97), (8, 98), (12, 102), (10, 110), (13, 114), (9, 116), (11, 118)]

def shortControlCharEscapes (c : UInt8) : Option (List UInt8) :=
  match shortNames.lookup c with
  | some letter => some [92, letter]
  | none =>
      if c < 10 then some [92, 48 + c]
      else if c < 32 then some [92, 48 + c / 10, 48 + c % 10]
      else none

def longControlCharEscapes (c : UInt8) : Option (List UInt8) :=
  if (shortNames.lookup c).isNone ∧ c < 32 then some [92, 48, 48 + c / 10, 48 + c % 10] else none

def escapeBackslash (c : UInt8) (_ : Option UInt8) : List UInt8 := if c = 92 then [92, 92] else [c]

/-- The replacement for `(%c)%f[0-9]`. -/
def escapeLong (c : UInt8) (next : Option UInt8) : List UInt8 :=
  if isControl c ∧ next.any isDigit then (longControlCharEscapes c).getD [c] else [c]

def escapeShort (c : UInt8) (_ : Option UInt8) : List UInt8 :=
  if isControl c then (shortControlCharEscapes c).getD [c] else [c]

def escape (str : List UInt8) : List UInt8 :=
  gsub escapeShort (gsub escapeLong (gsub escapeBackslash str))

def escapeQuote (c : UInt8) (_ : Option UInt8) : List UInt8 := if c = 34 then [92, 34] else [c]

def smartQuote (str : List UInt8) : List UInt8 :=
  if 34 ∈ str ∧ 39 ∉ str then 39 :: (str ++ [39]) else 34 :: (gsub escapeQuote str ++ [34])

/-! ### One character -/

variable {c q : UInt8} {next : Option UInt8} {str rest xs : List UInt8}
  {repl : UInt8 → Option UInt8 → List UInt8}

/-- What `escape` writes for a character, which depends on whether a digit follows. -/
def token (c : UInt8) (next : Option UInt8) : List UInt8 :=
  if c = 92 then [92, 92]
  else if isControl c then
    (if next.any isDigit then (longControlCharEscapes c).orElse fun _ => shortControlCharEscapes c
      else shortControlCharEscapes c).getD [c]
  else [c]

theorem gsub_append (h : ∀ c ∈ xs, ∀ next, repl c next = [c]) :
    gsub repl (xs ++ str) = xs ++ gsub repl str := by
  induction xs with
  | nil => rfl
  | cons x xs ih =>
      obtain ⟨hx, hxs⟩ := List.forall_mem_cons.mp h
      rw [List.cons_append, gsub, hx, ih hxs]
      rfl

theorem any_head_gsub (str : List UInt8) :
    (gsub escapeBackslash str).head?.any isDigit = str.head?.any isDigit := by
  cases str with
  | nil => rfl
  | cons c str =>
      rw [gsub, escapeBackslash]
      split
      · rename_i h
        subst h
        rfl
      · rfl

theorem forall_byte {P : UInt8 → Prop} (h : ∀ n < 256, P (UInt8.ofNat n)) (c : UInt8) : P c := by
  have hc := h c.toNat c.toNat_lt
  rwa [UInt8.ofNat_toNat] at hc

theorem longControl_plain (c : UInt8) :
    ∀ l ∈ longControlCharEscapes c, ∀ d ∈ l, isControl d = false := by
  revert c
  exact forall_byte (by decide +kernel)

theorem escapeShort_of_plain (h : isControl c = false) (next : Option UInt8) :
    escapeShort c next = [c] := by
  rw [escapeShort, h, if_neg Bool.false_ne_true]

theorem escapeLong_of_plain (h : isControl c = false) (next : Option UInt8) :
    escapeLong c next = [c] := by
  rw [escapeLong, h, if_neg fun h => Bool.false_ne_true h.1]

/-- The three passes of `escape`, one character at a time. -/
theorem escape_cons (c : UInt8) (rest : List UInt8) :
    escape (c :: rest) = token c rest.head? ++ escape rest := by
  have hnext := any_head_gsub rest
  rw [escape, gsub, escapeBackslash, token]
  by_cases hslash : c = 92
  · subst hslash
    have hplain : ∀ d ∈ [(92 : UInt8), 92], isControl d = false := by decide +kernel
    rw [if_pos rfl, if_pos rfl, gsub_append fun d hd => escapeLong_of_plain (hplain d hd),
      gsub_append fun d hd => escapeShort_of_plain (hplain d hd), escape]
  · rw [if_neg hslash, if_neg hslash, List.cons_append, List.nil_append, gsub, escapeLong, hnext]
    by_cases hcontrol : isControl c
    · rw [if_pos hcontrol]
      by_cases hdigit : rest.head?.any isDigit
      · rw [if_pos ⟨hcontrol, hdigit⟩, if_pos hdigit]
        cases hlong : longControlCharEscapes c with
        | none =>
            rw [Option.getD_none, List.cons_append, List.nil_append, gsub, escapeShort,
              if_pos hcontrol]
            rfl
        | some l =>
            have hplain := longControl_plain c l hlong
            rw [Option.getD_some, gsub_append fun d hd => escapeShort_of_plain (hplain d hd)]
            rfl
      · rw [if_neg fun h => hdigit h.2, if_neg hdigit, List.cons_append, List.nil_append, gsub,
          escapeShort, if_pos hcontrol]
        rfl
    · have hplain : isControl c = false := Bool.eq_false_iff.mpr hcontrol
      rw [if_neg hcontrol, if_neg fun h => hcontrol h.1, List.cons_append, List.nil_append, gsub,
        escapeShort_of_plain hplain]
      rfl

/-- What stands for a character between the quotes. -/
def quoted (q c : UInt8) (next : Option UInt8) : List UInt8 :=
  if c = 34 ∧ q = 34 then [92, 34] else token c next

def body (q : UInt8) : List UInt8 → List UInt8
  | [] => []
  | c :: rest => quoted q c rest.head? ++ body q rest

/-- The quote that is chosen for a string. -/
def quoteOf (str : List UInt8) : UInt8 := if 34 ∈ str ∧ 39 ∉ str then 39 else 34

theorem escape_eq_body (hq : q ≠ 34) (str : List UInt8) : escape str = body q str := by
  induction str with
  | nil => rfl
  | cons c str ih => rw [escape_cons, body, quoted, if_neg fun h => hq h.2, ih]

theorem mem_token_iff (next : Bool) (c d : UInt8) (hd : d = 34 ∨ d = 39) :
    d ∈ token c (if next then some 48 else none) ↔ d = c := by
  revert c
  rcases hd with rfl | rfl <;> cases next <;> exact forall_byte (by decide +kernel)

theorem token_congr {next' : Option UInt8} (h : next.any isDigit = next'.any isDigit) (c : UInt8) :
    token c next = token c next' := by
  rw [token, token, h]

theorem exists_next (next : Option UInt8) :
    ∃ digit : Bool, next.any isDigit = (if digit then some 48 else none : Option UInt8).any
      isDigit := by
  cases hnext : next.any isDigit with
  | false => exact ⟨false, rfl⟩
  | true => exact ⟨true, rfl⟩

theorem mem_escape_iff {d : UInt8} (hd : d = 34 ∨ d = 39) (str : List UInt8) :
    d ∈ escape str ↔ d ∈ str := by
  induction str with
  | nil => rfl
  | cons c str ih =>
      obtain ⟨digit, hnext⟩ := exists_next str.head?
      rw [escape_cons, token_congr hnext, List.mem_append, List.mem_cons, mem_token_iff _ _ _ hd,
        ih]

theorem gsub_escapeQuote (str : List UInt8) : gsub escapeQuote (escape str) = body 34 str := by
  induction str with
  | nil => rfl
  | cons c str ih =>
      rw [escape_cons, body, quoted]
      by_cases hc : c = 34
      · subst hc
        rw [if_pos ⟨rfl, rfl⟩, ← ih]
        rfl
      · obtain ⟨digit, hnext⟩ := exists_next str.head?
        have hkeep : ∀ d ∈ token c str.head?, ∀ next, escapeQuote d next = [d] := by
          intro d hd next
          rw [token_congr hnext] at hd
          refine if_neg ?_
          rintro rfl
          exact hc ((mem_token_iff _ _ _ (.inl rfl)).mp hd).symm
        rw [if_neg fun h => hc h.1, gsub_append hkeep, ih]

theorem smartQuote_escape (str : List UInt8) :
    smartQuote (escape str) = quoteOf str :: (body (quoteOf str) str ++ [quoteOf str]) := by
  have hiff : (34 ∈ escape str ∧ 39 ∉ escape str) ↔ (34 ∈ str ∧ 39 ∉ str) := by
    rw [mem_escape_iff (.inl rfl), mem_escape_iff (.inr rfl)]
  rw [smartQuote, quoteOf]
  by_cases h : 34 ∈ str ∧ 39 ∉ str
  · rw [if_pos (hiff.mpr h), if_pos h, escape_eq_body (q := 39) (by decide) str]
  · rw [if_neg fun h' => h (hiff.mp h'), if_neg h, gsub_escapeQuote]

/-! ### Reading it back -/

theorem shortNames_spec (c : UInt8) : ∀ letter ∈ shortNames.lookup c,
    named.lookup letter = some c ∧ isDigit letter = false := by
  revert c
  exact forall_byte (by decide +kernel)

/-- The decimal escapes of a control character. -/
theorem decimal_spec (c : UInt8) (hc : c < 32) :
    isDigit (48 + c / 10) ∧ isDigit (48 + c % 10) ∧
      10 * digit (48 + c / 10) + digit (48 + c % 10) = c.toNat ∧
      (c < 10 → isDigit (48 + c) ∧ digit (48 + c) = c.toNat) := by
  revert hc
  revert c
  exact forall_byte (by decide +kernel)

theorem ofNat_toNat_le (c : UInt8) : c.toNat ≤ 255 ∧ UInt8.ofNat c.toNat = c :=
  ⟨Nat.le_of_lt_succ c.toNat_lt, UInt8.ofNat_toNat⟩

theorem ne_of_quote (hq : q = 34 ∨ q = 39) : (92 : UInt8) ≠ q := by
  rcases hq with rfl | rfl <;> decide

theorem lex_short (hq : q = 34 ∨ q = 39) (hc : c < 32) (hname : shortNames.lookup c = none)
    (hrest : rest.head?.any isDigit = false) :
    lex q .text ((shortControlCharEscapes c).getD [c] ++ rest) =
      (lex q .text rest).map fun p => (c :: p.1, p.2) := by
  obtain ⟨htens, hunits, htwo, hone⟩ := decimal_spec c hc
  obtain ⟨hle, hself⟩ := ofNat_toNat_le c
  have hend (count : Nat) : ¬ (count < 3 ∧ rest.head?.any isDigit = true) := by
    rw [hrest]
    exact fun h => Bool.false_ne_true h.2
  rw [shortControlCharEscapes, hname]
  by_cases hten : c < 10
  · obtain ⟨hdigit, hvalue⟩ := hone hten
    simp only [if_pos hten, Option.getD_some, List.cons_append, List.nil_append]
    rw [lex_escape (ne_of_quote hq), lex_first_digit hdigit, hvalue, lex_digits_end (hend 1) hle,
      hself]
  · simp only [if_neg hten, if_pos hc, Option.getD_some, List.cons_append, List.nil_append]
    rw [lex_escape (ne_of_quote hq), lex_first_digit htens, lex_next_digit (by decide) hunits, htwo,
      lex_digits_end (hend 2) hle, hself]

theorem lex_long (hq : q = 34 ∨ q = 39) (hc : c < 32) (rest : List UInt8) :
    lex q .text ([92, 48, 48 + c / 10, 48 + c % 10] ++ rest) =
      (lex q .text rest).map fun p => (c :: p.1, p.2) := by
  obtain ⟨htens, hunits, htwo, -⟩ := decimal_spec c hc
  obtain ⟨hle, hself⟩ := ofNat_toNat_le c
  have hzero : 10 * digit 48 + digit (48 + c / 10) = digit (48 + c / 10) := by
    have h : digit 48 = 0 := by decide
    omega
  simp only [List.cons_append, List.nil_append]
  rw [lex_escape (ne_of_quote hq), lex_first_digit (by decide), lex_next_digit (by decide) htens,
    hzero, lex_next_digit (by decide) hunits, htwo,
    lex_digits_end (fun h => absurd h.1 (by decide)) hle, hself]

theorem isControl_iff (c : UInt8) : isControl c = true ↔ c < 32 ∨ c = 127 := by
  rw [isControl, Bool.or_eq_true, decide_eq_true_eq, decide_eq_true_eq]

/-- A character between the quotes is read as itself. -/
theorem lex_quoted (hq : q = 34 ∨ q = 39) (hne : c = q → q = 34)
    (hnext : rest.head?.any isDigit = next.any isDigit) :
    lex q .text (quoted q c next ++ rest) =
      (lex q .text rest).map fun p => (c :: p.1, p.2) := by
  rw [quoted]
  by_cases hquote : c = 34 ∧ q = 34
  · obtain ⟨rfl, rfl⟩ := hquote
    rw [if_pos ⟨rfl, rfl⟩, List.cons_append, List.cons_append, List.nil_append,
      lex_escape (by decide), lex_named (b := 34) rfl (by decide)]
  · have hdel : c ≠ q := fun h => hquote ⟨h.trans (hne h), hne h⟩
    rw [if_neg hquote, token]
    by_cases hslash : c = 92
    · subst hslash
      rw [if_pos rfl, List.cons_append, List.cons_append, List.nil_append,
        lex_escape (ne_of_quote hq), lex_named (b := 92) rfl (by decide)]
    · rw [if_neg hslash]
      by_cases hcontrol : isControl c
      · rw [if_pos hcontrol]
        rcases (isControl_iff c).mp hcontrol with hc | rfl
        · cases hname : shortNames.lookup c with
          | some letter =>
              obtain ⟨hnamed, hletter⟩ := shortNames_spec c letter hname
              have hlong : longControlCharEscapes c = none := by
                rw [longControlCharEscapes, hname]
                exact if_neg fun h => Bool.false_ne_true h.1
              have hshort : shortControlCharEscapes c = some [92, letter] := by
                rw [shortControlCharEscapes, hname]
              rw [hlong, hshort]
              simp only [Option.orElse_none, ite_self, Option.getD_some, List.cons_append,
                List.nil_append]
              rw [lex_escape (ne_of_quote hq), lex_named hnamed hletter]
          | none =>
              by_cases hdigit : next.any isDigit
              · have hlong : longControlCharEscapes c =
                    some [92, 48, 48 + c / 10, 48 + c % 10] := by
                  rw [longControlCharEscapes, hname]
                  exact if_pos ⟨rfl, hc⟩
                rw [if_pos hdigit, hlong]
                exact lex_long hq hc rest
              · rw [if_neg hdigit]
                exact lex_short hq hc hname (hnext.trans (Bool.eq_false_iff.mpr hdigit))
        · have hlong : longControlCharEscapes 127 = none := by decide
          have hshort : shortControlCharEscapes 127 = none := by decide
          rw [hlong, hshort]
          simp only [Option.orElse_none, ite_self, Option.getD_none]
          exact lex_plain hdel (by decide) rest
      · rw [if_neg hcontrol]
        refine lex_plain hdel ⟨hslash, ?_, ?_⟩ rest
        · rintro rfl
          exact hcontrol rfl
        · rintro rfl
          exact hcontrol rfl

theorem head_quoted (hq : q = 34 ∨ q = 39) (digit : Bool) (c : UInt8) :
    (quoted q c (if digit then some 48 else none)).head?.map isDigit = some (isDigit c) := by
  revert c
  rcases hq with rfl | rfl <;> cases digit <;> exact forall_byte (by decide +kernel)

theorem quoted_congr {next' : Option UInt8} (h : next.any isDigit = next'.any isDigit)
    (q c : UInt8) : quoted q c next = quoted q c next' := by
  rw [quoted, quoted, token_congr h]

/-- A digit starts the text of the string exactly where it starts the string. -/
theorem any_head_body (hq : q = 34 ∨ q = 39) (str tail : List UInt8) :
    (body q str ++ q :: tail).head?.any isDigit = str.head?.any isDigit := by
  cases str with
  | nil => rcases hq with rfl | rfl <;> rfl
  | cons c str =>
      obtain ⟨digit, hnext⟩ := exists_next str.head?
      obtain ⟨d, hd, hdigit⟩ := Option.map_eq_some_iff.mp (head_quoted hq digit c)
      rw [body, quoted_congr hnext, List.append_assoc, List.head?_append, hd]
      exact hdigit

theorem lex_body (hq : q = 34 ∨ q = 39) (hne : ∀ c ∈ str, c = q → q = 34) (tail : List UInt8) :
    lex q .text (body q str ++ q :: tail) = some (str, tail) := by
  induction str with
  | nil => exact lex_delimiter q tail
  | cons c str ih =>
      obtain ⟨hc, hstr⟩ := List.forall_mem_cons.mp hne
      rw [body, List.append_assoc, lex_quoted hq hc (any_head_body hq str tail), ih hstr]
      rfl

/-- What is written for a string is a literal that Lua reads as this string, whatever follows. -/
theorem readLiteral_smartQuote (str tail : List UInt8) :
    readLiteral (smartQuote (escape str) ++ tail) = some (str, tail) := by
  have hq : quoteOf str = 34 ∨ quoteOf str = 39 := by
    rw [quoteOf]
    split
    · exact .inr rfl
    · exact .inl rfl
  have hne : ∀ c ∈ str, c = quoteOf str → quoteOf str = 34 := by
    intro c hc heq
    rcases hq with h | h
    · exact h
    · rw [quoteOf] at h
      split at h
      · rename_i hsingle
        rw [quoteOf, if_pos hsingle] at heq
        exact absurd (heq ▸ hc) hsingle.2
      · cases h
  rw [smartQuote_escape, List.cons_append, List.append_assoc, readLiteral, if_pos hq]
  exact lex_body hq hne tail

end CodeSlices.Inspect
