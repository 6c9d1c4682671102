import Mathlib.Data.List.Basic

/-!
# Names

`tools/dnsrelay/dns.py`. A Python string is the list of its characters; what the program raises is
an error value.
-/

namespace CodeSlices.DnsRelay

abbrev Str := List Char

def cantResolve : Str := ['-']

inductive PyError
  | indexError
  | unboundLocalError
  deriving DecidableEq

structure Host where
  ip : Str
  domain : Str
  deriving DecidableEq

/-- `s[i]` for an index that is not negative. -/
def charAt (s : Str) (i : Nat) : Except PyError Char :=
  match s[i]? with
  | some c => .ok c
  | none => .error .indexError

/-- `s[-1]` -/
def lastChar (s : Str) : Except PyError Char :=
  match s.getLast? with
  | some c => .ok c
  | none => .error .indexError

/-- The loop of `unshake`, for the passes that are left. -/
def unshakeLoop (input : Str) : Nat → Nat → Str → Except PyError (Nat × Str)
  | 0, i, output => .ok (i, output)
  | passes + 1, i, output => do
      let second ← charAt input (i + 1)
      let first ← charAt input i
      unshakeLoop input passes (i + 2) (output ++ [second] ++ [first])

def unshake (input : Str) : Except PyError Str := do
  let (i, output) ← unshakeLoop input (input.length / 2) 0 []
  if i < input.length then
    let last ← lastChar input
    .ok (output ++ [last])
  else .ok output

/-- `re.compile("[^A-Z\d-]", re.IGNORECASE).search(label)` -/
def disallowed (label : Str) : Bool := label.any fun c => !(c.isAlphanum || c == '-')

def isValidLabel (label : Str) : Bool :=
  !label.isEmpty && label.length ≤ 63 && label.head? != some '-' && label.getLast? != some '-' &&
    !disallowed label

def isValidHostname (hostname : Str) : Bool :=
  if 255 < hostname.length then false
  else
    let hostname := if hostname.getLast? = some '.' then hostname.dropLast else hostname
    if '.' ∉ hostname then false else (hostname.splitOn '.').all isValidLabel

/-! ### What `unshake` computes -/

/-- The characters of each pair swapped, and an odd last one left alone. -/
def swapPairs : Str → Str
  | [] => []
  | [c] => [c]
  | first :: second :: rest => second :: first :: swapPairs rest

theorem charAt_append (pre rest : Str) (c : Char) :
    charAt (pre ++ c :: rest) pre.length = .ok c := by
  rw [charAt, List.getElem?_append_right (Nat.le_refl _), Nat.sub_self, List.getElem?_cons_zero]

theorem unshakeLoop_eq (rest : Str) : ∀ pre output : Str, ∃ front tail,
    unshakeLoop (pre ++ rest) (rest.length / 2) pre.length output =
        .ok ((pre ++ rest).length - tail.length, output ++ front) ∧
      swapPairs rest = front ++ tail ∧ (tail = [] ∨ ∃ c, tail = [c] ∧ rest.getLast? = some c) := by
  induction rest using swapPairs.induct with
  | case1 => exact fun pre output => ⟨[], [], by simp [unshakeLoop], rfl, Or.inl rfl⟩
  | case2 c => exact fun pre output => ⟨[], [c], by simp [unshakeLoop], rfl, Or.inr ⟨c, rfl, rfl⟩⟩
  | case3 first second rest ih =>
      intro pre output
      obtain ⟨front, tail, hloop, hswap, htail⟩ :=
        ih (pre ++ [first, second]) (output ++ [second] ++ [first])
      refine ⟨second :: first :: front, tail, ?_, by rw [swapPairs, hswap]; rfl, ?_⟩
      · have hlen : (first :: second :: rest).length / 2 = rest.length / 2 + 1 := by
          simp only [List.length_cons]
          omega
        have hfirst : charAt (pre ++ first :: second :: rest) pre.length = .ok first :=
          charAt_append pre (second :: rest) first
        have hsecond : charAt (pre ++ first :: second :: rest) (pre.length + 1) = .ok second := by
          simpa using charAt_append (pre ++ [first]) rest second
        rw [hlen, unshakeLoop, hfirst, hsecond]
        change unshakeLoop _ _ (pre.length + 2) (output ++ [second] ++ [first]) = _
        simpa using hloop
      · rcases htail with htail | ⟨c, htail, hlast⟩
        · exact Or.inl htail
        · refine Or.inr ⟨c, htail, ?_⟩
          cases rest with
          | nil => cases hlast
          | cons d rest => simpa using hlast

theorem unshake_eq (input : Str) : unshake input = .ok (swapPairs input) := by
  obtain ⟨front, tail, hloop, hswap, htail⟩ := unshakeLoop_eq input [] []
  rw [List.nil_append, List.nil_append, List.length_nil] at hloop
  rw [unshake, hloop, hswap]
  change (if input.length - tail.length < input.length then _ else _) = _
  rcases htail with rfl | ⟨c, rfl, hlast⟩
  · simp
  · have hpos : 0 < input.length := by
      cases input with
      | nil => cases hlast
      | cons d input => exact Nat.succ_pos _
    rw [List.length_singleton, if_pos (by omega), lastChar, hlast]
    rfl

theorem swapPairs_perm (s : Str) : (swapPairs s).Perm s := by
  induction s using swapPairs.induct with
  | case1 => exact List.Perm.refl []
  | case2 c => exact List.Perm.refl [c]
  | case3 first second rest ih =>
      calc
        (swapPairs (first :: second :: rest)).Perm (second :: first :: rest) :=
          (ih.cons first).cons second
        List.Perm _ (first :: second :: rest) := List.Perm.swap first second rest

theorem swapPairs_swapPairs (s : Str) : swapPairs (swapPairs s) = s := by
  induction s using swapPairs.induct with
  | case1 => rfl
  | case2 c => rfl
  | case3 first second rest ih => rw [swapPairs, swapPairs, ih]

/-- `unshake` raises nothing, reorders the characters and undoes itself, so that every name has
exactly one scrambled form. -/
theorem unshake_unshake (s : Str) :
    ∃ t, unshake s = .ok t ∧ t.length = s.length ∧ t.Perm s ∧ unshake t = .ok s ∧
      ∃! shaken, unshake shaken = .ok s := by
  refine ⟨swapPairs s, unshake_eq s, (swapPairs_perm s).length_eq, swapPairs_perm s, ?_,
    swapPairs s, ?_, ?_⟩
  · rw [unshake_eq, swapPairs_swapPairs]
  · change unshake (swapPairs s) = .ok s
    rw [unshake_eq, swapPairs_swapPairs]
  · intro shaken hshaken
    rw [unshake_eq] at hshaken
    rw [← Except.ok.inj hshaken, swapPairs_swapPairs]

end CodeSlices.DnsRelay
