import CodeSlices.Inspect.Appearances

/-!
# The inspector

What `lua/inspect.lua` writes for a value. The option `process` is left out, and `sortkeys`, which
is true whatever the caller gives for it.
-/

namespace CodeSlices.Inspect

/-- A part of the text, with the table it stands for where there is one. -/
inductive Piece (α : Type)
  | text (str : List UInt8)
  | mark (a : α) (id : Nat)
  | opening (a : α)
  | reference (a : α) (id : Nat)
  | elided (a : α)

/-- `depth` is `none` for `math.huge`. -/
structure Options where
  depth : Option Nat := none
  newline : List UInt8 := [10]
  indent : List UInt8 := [32, 32]
  smartquote : Nat := 1

/-- What does not change while a value is written. -/
structure Env (α : Type) where
  heap : Heap α
  sorter : TableSort α
  tostring : Value α → List UInt8
  options : Options
  tableAppearances : α → Option Nat

structure Inspector (α : Type) where
  level : Nat := 0
  buffer : List (Piece α) := []
  ids : Value α → Option Nat := fun _ => none
  maxIds : TypeName → Option Nat := fun _ => none

abbrev Inspecting (α : Type) := StateT (Inspector α) Option

variable {α : Type} [DecidableEq α]

def puts (args : List (Piece α)) : Inspecting α Unit :=
  modify fun s => { s with buffer := s.buffer ++ args }

def down (f : Inspecting α Unit) : Inspecting α Unit := do
  modify fun s => { s with level := s.level + 1 }
  f
  modify fun s => { s with level := s.level - 1 }

def tabify (env : Env α) : Inspecting α Unit := do
  let s ← get
  puts [.text env.options.newline, .text (List.replicate s.level env.options.indent).flatten]

def getId (v : Value α) : Inspecting α Nat :=
  modifyGet fun s =>
    match s.ids v with
    | some id => (id, s)
    | none =>
        let id := (s.maxIds (type v)).getD 0 + 1
        (id, { s with
          ids := Function.update s.ids v (some id)
          maxIds := Function.update s.maxIds (type v) (some id) })

def isLetter (c : UInt8) : Bool := (65 ≤ c && c ≤ 90) || (97 ≤ c && c ≤ 122)

/-- `str:match("^[_%a][_%a%d]*$")`. -/
def isIdentifier : Value α → Bool
  | .string (c :: rest) =>
      (c = 95 || isLetter c) && rest.all fun c => c = 95 || isLetter c || LuaLiteral.isDigit c
  | _ => false

section Tables

variable (env : Env α) (putValue : Value α → Inspecting α Unit) (t : α)

def putKey (k : Value α) : Inspecting α Unit :=
  match k, isIdentifier k with
  | .string str, true => puts [.text str]
  | k, _ => do
      puts [.text (bytes "[")]
      putValue k
      puts [.text (bytes "]")]

def putComma (count : Nat) : Inspecting α Unit :=
  if 0 < count then puts [.text (bytes ",")] else pure ()

/-- A pass of the loop over the sequence. -/
def putItem (count : Nat) (i : Value α) : Inspecting α Nat := do
  putComma count
  puts [.text (bytes " ")]
  putValue (rawget env.heap t i)
  pure (count + 1)

/-- A pass of the loop over the other keys. -/
def putEntry (count : Nat) (k : Value α) : Inspecting α Nat := do
  putComma count
  tabify env
  putKey putValue k
  puts [.text (bytes " \t= ")]
  putValue (rawget env.heap t k)
  pure (count + 1)

def putMetatable (count : Nat) : Value α → Inspecting α Unit
  | .table mt => do
      putComma count
      tabify env
      puts [.text (bytes "<metatable> = ")]
      putValue (.table mt)
  | _ => pure ()

/-- What is written between the braces. -/
def putContents : Inspecting α Unit := do
  let count ← (sequenceKeys α (getSequenceLength env.heap t)).foldlM (putItem env putValue t) 0
  let count ← (getNonSequentialKeys env.heap env.sorter t).foldlM (putEntry env putValue t) count
  putMetatable env putValue count (env.heap.metatable t)

def putClosing : Inspecting α Unit := do
  if 0 < (getNonSequentialKeys env.heap env.sorter t).length ∨
      type (env.heap.metatable t) = .table then tabify env
  else if 0 < getSequenceLength env.heap t then puts [.text (bytes " ")]
  else pure ()
  puts [.text (bytes "\x7d")]

/-- A comparison with a count that there is not is an error. -/
def putMark : Inspecting α Unit :=
  match env.tableAppearances t with
  | none => failure
  | some n =>
      if 1 < n then do
        let id ← getId (.table t)
        puts [.mark t id]
      else pure ()

def putTable : Inspecting α Unit := do
  let s ← get
  if t = env.heap.KEY ∨ t = env.heap.METATABLE then
    puts [.text (env.tostring (.table t))]
  else if (s.ids (.table t)).isSome then do
    let id ← getId (.table t)
    puts [.reference t id]
  else if env.options.depth.any fun depth => depth ≤ s.level then
    puts [.elided t]
  else do
    putMark env t
    puts [.opening t]
    down (putContents env putValue t)
    putClosing env t

end Tables

def putValue (env : Env α) : Nat → Value α → Inspecting α Unit
  | 0, _ => failure
  | fuel + 1, v =>
      match v with
      | .string str =>
          if env.options.smartquote = 1 then puts [.text (smartQuote (escape str))]
          else puts [.text str]
      | .table t => putTable env (putValue env fuel) t
      | .number _ | .boolean _ | .nil | .other .cdata _ | .other .ctype _ =>
          puts [.text (env.tostring v)]
      | .other kind _ => do
          let id ← getId v
          puts [.text (bytes "<"), .text (TypeName.kind kind).name, .text (bytes " "),
            .text (env.tostring (.number id)), .text (bytes ">")]

/-- The text of a part. -/
def Piece.render (tostring : Value α → List UInt8) : Piece α → List UInt8
  | .text str => str
  | .mark _ id => bytes "<" ++ tostring (.number id) ++ bytes ">"
  | .opening _ => bytes "\x7b"
  | .reference _ id => bytes "<table " ++ tostring (.number id) ++ bytes ">"
  | .elided _ => bytes "\x7b...\x7d"

/-- The buffer after `inspect.inspect`, when no recursion goes deeper than `fuel`. -/
def inspect (heap : Heap α) (sorter : TableSort α) (tostring : Value α → List UInt8)
    (options : Options) (fuel : Nat) (root : Value α) : Option (List (Piece α)) := do
  let counted ← countTableAppearances heap fuel root fun _ => none
  let written ← putValue ⟨heap, sorter, tostring, options, counted.2⟩ fuel root {}
  pure written.2.buffer

/-- `table.concat`. -/
def concat (tostring : Value α → List UInt8) (buffer : List (Piece α)) : List UInt8 :=
  buffer.flatMap (Piece.render tostring)

end CodeSlices.Inspect
