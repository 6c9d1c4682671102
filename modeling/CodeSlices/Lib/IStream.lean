import Mathlib.Data.List.TakeWhile

/-!
# Input file streams

An input stream of the C++ library over a file, with its position and its two flags. An operation
on a stream that is not good only sets its fail flag.
-/

namespace CodeSlices

structure IStream where
  data : List UInt8
  isOpen : Bool
  pos : Nat
  eof : Bool
  fail : Bool
  deriving DecidableEq

namespace IStream

def closed : IStream := ⟨[], false, 0, false, false⟩

/-- The stream over an open file, at a position. -/
def openAt (data : List UInt8) (pos : Nat) : IStream := ⟨data, true, pos, false, false⟩

def good (s : IStream) : Bool := !s.eof && !s.fail

def rest (s : IStream) : List UInt8 := if s.isOpen then s.data.drop s.pos else []

/-- `open`, with what is in the file of that name. -/
def openFile (s : IStream) (file : Option (List UInt8)) : IStream :=
  match s.isOpen, file with
  | false, some data => openAt data 0
  | _, _ => { s with fail := true }

def close (s : IStream) : IStream :=
  if s.isOpen then { s with isOpen := false } else { s with fail := true }

def seekg (s : IStream) (offset : Nat) : IStream :=
  if s.fail || !s.isOpen then { s with eof := false, fail := true }
  else { s with eof := false, pos := offset }

/-- `tellg`, with nothing for its `-1`. -/
def tellg (s : IStream) : Option Nat × IStream :=
  if s.good then (some s.pos, s) else (none, { s with fail := true })

/-- The bytes that `read` gets, of the `n` asked for. -/
def read (s : IStream) (n : Nat) : List UInt8 × IStream :=
  if s.good then
    let got := s.rest.take n
    let short := decide (got.length < n)
    (got, { s with pos := s.pos + got.length, eof := short, fail := short })
  else ([], { s with fail := true })

def get (s : IStream) : Option UInt8 × IStream :=
  if s.good then
    match s.rest with
    | [] => (none, { s with eof := true, fail := true })
    | c :: _ => (some c, { s with pos := s.pos + 1 })
  else (none, { s with fail := true })

/-- `putback` of the character that the last `get` gave. -/
def putback (s : IStream) : IStream :=
  if s.fail then { s with eof := false } else { s with eof := false, pos := s.pos - 1 }

/-- What `getline` does behind the characters it got. -/
def endLine (s : IStream) (got : List UInt8) (delim : UInt8) : List UInt8 × IStream :=
  match s.rest.drop got.length with
  | [] => (got, { s with pos := s.pos + got.length, eof := true, fail := got.isEmpty })
  | c :: _ =>
      if c = delim then (got, { s with pos := s.pos + got.length + 1 })
      else (got, { s with pos := s.pos + got.length, fail := true })

/-- `getline` into an array of `n` characters, of which the last is for the terminator. -/
def getline (s : IStream) (n : Nat) (delim : UInt8) : List UInt8 × IStream :=
  if s.good then s.endLine ((s.rest.take (n - 1)).takeWhile (· ≠ delim)) delim
  else ([], { s with fail := true })

variable {s : IStream} {data str tail : List UInt8} {pos n : Nat} {delim c : UInt8}

theorem good_openAt : (openAt data pos).good = true := rfl

theorem rest_openAt : (openAt data pos).rest = data.drop pos := rfl

theorem openFile_of_closed (h : s.isOpen = false) : s.openFile (some data) = openAt data 0 := by
  simp only [openFile, h]

theorem seekg_openAt (offset : Nat) : (openAt data pos).seekg offset = openAt data offset := rfl

theorem tellg_openAt : (openAt data pos).tellg = (some pos, openAt data pos) := rfl

theorem putback_openAt : (openAt data (pos + 1)).putback = openAt data pos := rfl

theorem read_openAt (hle : pos + n ≤ data.length) :
    (openAt data pos).read n = ((data.drop pos).take n, openAt data (pos + n)) := by
  have hlen : ((data.drop pos).take n).length = n := by
    rw [List.length_take, List.length_drop]
    omega
  have hshort : decide (n < n) = false := decide_eq_false (Nat.lt_irrefl n)
  rw [read, if_pos good_openAt]
  simp only [rest_openAt, hlen, hshort]
  rfl

theorem get_openAt (hdrop : data.drop pos = c :: tail) :
    (openAt data pos).get = (some c, openAt data (pos + 1)) := by
  change (match data.drop pos with
    | [] => _
    | c :: _ => (some c, openAt data (pos + 1))) = _
  rw [hdrop]

theorem takeWhile_take_of_length_le (hnot : delim ∉ str) (hle : str.length ≤ n) :
    ((str ++ delim :: tail).take n).takeWhile (· ≠ delim) = str := by
  have hstr : ∀ c ∈ str, decide (c ≠ delim) = true := by
    intro c hc
    exact decide_eq_true fun heq => hnot (heq ▸ hc)
  rw [List.take_append, List.take_of_length_le hle, List.takeWhile_append_of_pos hstr]
  cases n - str.length with
  | zero => exact List.append_nil str
  | succ m =>
      rw [List.take_succ_cons, List.takeWhile_cons_of_neg, List.append_nil]
      exact fun h => of_decide_eq_true h rfl

/-- A line that fits is read whole, and the stream stands behind its delimiter. -/
theorem getline_openAt (hdrop : data.drop pos = str ++ delim :: tail) (hnot : delim ∉ str)
    (hlt : str.length < n) :
    (openAt data pos).getline n delim = (str, openAt data (pos + str.length + 1)) := by
  have hgot : (((openAt data pos).rest).take (n - 1)).takeWhile (· ≠ delim) = str := by
    rw [rest_openAt, hdrop]
    exact takeWhile_take_of_length_le hnot (by omega)
  rw [getline, if_pos good_openAt, hgot, endLine, rest_openAt, hdrop, List.drop_left]
  exact if_pos rfl

/-- Of a line that is too long the first characters are read, and the stream has failed. -/
theorem getline_long (hdrop : data.drop pos = str ++ tail) (hnot : delim ∉ str)
    (hle : n ≤ str.length) (hpos : 0 < n) :
    ((openAt data pos).getline n delim).1 = str.take (n - 1) ∧
      ((openAt data pos).getline n delim).2.fail = true := by
  have htake : (str ++ tail).take (n - 1) = str.take (n - 1) :=
    List.take_append_of_le_length (by omega)
  have hgot : (((openAt data pos).rest).take (n - 1)).takeWhile (· ≠ delim) = str.take (n - 1) := by
    rw [rest_openAt, hdrop, htake, List.takeWhile_eq_self_iff]
    intro c hc
    exact decide_eq_true fun heq => hnot (heq ▸ List.mem_of_mem_take hc)
  have hlen : (str.take (n - 1)).length = n - 1 := by
    rw [List.length_take]
    omega
  have hnext : n - 1 < str.length := by omega
  have hcons : (str ++ tail).drop (n - 1) = str[n - 1] :: (str.drop (n - 1 + 1) ++ tail) := by
    rw [List.drop_append_of_le_length (by omega), List.drop_eq_getElem_cons hnext,
      List.cons_append]
  have hne : str[n - 1] ≠ delim := fun heq => hnot (heq ▸ List.getElem_mem hnext)
  rw [getline, if_pos good_openAt, hgot, endLine, rest_openAt, hdrop, hlen, hcons]
  simp only [if_neg hne, and_self]

/-- A stream that has failed reads nothing and stays so until it is opened again. -/
theorem getline_of_fail (h : s.fail = true) (n : Nat) (delim : UInt8) :
    s.getline n delim = ([], s) := by
  rw [getline, good, h, Bool.not_true, Bool.and_false, if_neg Bool.false_ne_true, ← h]

theorem get_of_fail (h : s.fail = true) : s.get = (none, s) := by
  rw [get, good, h, Bool.not_true, Bool.and_false, if_neg Bool.false_ne_true, ← h]

theorem read_of_fail (h : s.fail = true) (n : Nat) : s.read n = ([], s) := by
  rw [read, good, h, Bool.not_true, Bool.and_false, if_neg Bool.false_ne_true, ← h]

theorem tellg_of_fail (h : s.fail = true) : s.tellg = (none, s) := by
  rw [tellg, good, h, Bool.not_true, Bool.and_false, if_neg Bool.false_ne_true, ← h]

theorem seekg_of_fail (h : s.fail = true) (offset : Nat) :
    s.seekg offset = { s with eof := false } := by
  rw [seekg, h, Bool.true_or, if_pos rfl, ← h]

end IStream

end CodeSlices
