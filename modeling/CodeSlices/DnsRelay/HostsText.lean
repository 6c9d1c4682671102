import Mathlib.Data.List.DropRight
import CodeSlices.DnsRelay.Hosts

/-!
# The text of a hosts page

What `_parse_hosts` of `tools/dnsrelay/dnshosts.py` finds in a text, next to the hosts that its
lines are meant to give. The two part where blanks and newlines are not all the white space that
stands before a mark.
-/

namespace CodeSlices.DnsRelay.DNSHostsManager

variable {s t line : Str} {c : Char}

/-! ### Words -/

theorem splitWords_append_space (hc : isSpace c) (s t : Str) :
    splitWords (s ++ c :: t) = splitWords s ++ splitWords t := by
  unfold splitWords
  rw [List.splitOnP_append_cons s t hc, List.filter_append]

theorem splitWords_nil : splitWords [] = [] := rfl

theorem splitWords_cons_space (hc : isSpace c) (s : Str) : splitWords (c :: s) = splitWords s := by
  have happend := splitWords_append_space hc [] s
  rwa [splitWords_nil, List.nil_append, List.nil_append] at happend

theorem splitWords_concat_space (hc : isSpace c) (s : Str) :
    splitWords (s ++ [c]) = splitWords s := by
  rw [splitWords_append_space hc, splitWords_nil, List.append_nil]

/-- The first word starts with the first character that is no white space. -/
theorem splitWords_cons_of_not_space (hc : isSpace c = false) (s : Str) :
    ∃ word words, splitWords (c :: s) = (c :: word) :: words := by
  obtain ⟨first, others, hsplit⟩ := List.exists_cons_of_ne_nil (List.splitOnP_ne_nil isSpace s)
  refine ⟨first, others.filter fun word => !word.isEmpty, ?_⟩
  rw [splitWords, List.splitOnP_cons_eq_if_modifyHead, if_neg (by simp [hc]), hsplit,
    List.modifyHead_cons, List.filter_cons_of_pos (by simp)]

theorem splitWords_dropWhile {p : Char → Bool} (hp : ∀ c, p c → isSpace c) (s : Str) :
    splitWords (s.dropWhile p) = splitWords s := by
  induction s with
  | nil => rfl
  | cons c s ih =>
      by_cases hc : p c
      · rw [List.dropWhile_cons_of_pos hc, ih, splitWords_cons_space (hp c hc)]
      · rw [List.dropWhile_cons_of_neg hc]

theorem splitWords_rdropWhile {p : Char → Bool} (hp : ∀ c, p c → isSpace c) (s : Str) :
    splitWords (s.rdropWhile p) = splitWords s := by
  induction s using List.reverseRecOn with
  | nil => rfl
  | append_singleton s c ih =>
      by_cases hc : p c
      · rw [List.rdropWhile_concat_pos _ _ _ hc, ih, splitWords_concat_space (hp c hc)]
      · rw [List.rdropWhile_concat_neg _ _ _ hc]

theorem strip_eq (chars s : Str) :
    strip chars s = (s.dropWhile (· ∈ chars)).rdropWhile (· ∈ chars) := rfl

/-! ### Lines -/

/-- The marks at which a line is left out. -/
def IsMark (c : Char) : Prop := c = '{' ∨ c = '#' ∨ c = '}'

instance : DecidablePred IsMark :=
  fun c => inferInstanceAs (Decidable (c = '{' ∨ c = '#' ∨ c = '}'))

def hostsOfWords : List Str → List Host
  | [] => []
  | ip :: doms => if ip = "127.0.0.1".toList then [] else doms.map fun dom => ⟨ip, dom⟩

/-- The hosts a line is meant to give: none when its first character that is no white space is a
mark. -/
def hostsOfLine (line : Str) : List Host :=
  match line.dropWhile isSpace with
  | [] => []
  | c :: _ => if IsMark c then [] else hostsOfWords (splitWords line)

/-- A line of two words or more with other white space than blanks and newlines before a mark. -/
def Disguised (line : Str) : Prop :=
  2 ≤ (splitWords line).length ∧ (∃ c rest, line.dropWhile isSpace = c :: rest ∧ IsMark c) ∧
    ∃ c ∈ line.takeWhile isSpace, c ∉ [' ', '\n']

theorem isSpace_of_mem (hc : c ∈ [' ', '\n']) : isSpace c := by
  rcases List.mem_cons.mp hc with rfl | hc
  · rfl
  · obtain rfl := List.mem_singleton.mp hc
    rfl

theorem not_of_dropWhile_eq_cons {p : Char → Bool} {rest : Str}
    (h : s.dropWhile p = c :: rest) : ¬ p c := by
  have hhead := List.head_dropWhile_not p (by rw [h]; exact List.cons_ne_nil c rest)
  simp only [h, List.head_cons] at hhead
  simp [hhead]

theorem exists_rdropWhile_cons {p : Char → Bool} (hc : ¬ p c) (rest : Str) :
    ∃ rest', (c :: rest).rdropWhile p = c :: rest' := by
  have hne : (c :: rest).rdropWhile p ≠ [] := fun h =>
    hc (List.rdropWhile_eq_nil_iff.mp h c List.mem_cons_self)
  obtain ⟨first, rest', heq⟩ := List.exists_cons_of_ne_nil hne
  have hprefix := List.rdropWhile_prefix p (c :: rest)
  rw [heq, List.cons_prefix_cons] at hprefix
  exact ⟨rest', hprefix.1 ▸ heq⟩

/-- What a line gives, by the first character after its blanks. -/
theorem parseLine_eq (line : Str) :
    parseLine line = match line.dropWhile (· ∈ [' ', '\n']) with
      | [] => []
      | c :: _ => if IsMark c then [] else hostsOfWords (splitWords line) := by
  have hspace : ∀ c, decide (c ∈ [' ', '\n']) → isSpace c := fun c hc =>
    isSpace_of_mem (of_decide_eq_true hc)
  have hwords : splitWords (strip [' ', '\n'] line) = splitWords line := by
    rw [strip_eq, splitWords_rdropWhile hspace, splitWords_dropWhile hspace]
  unfold parseLine
  rw [strip_eq] at hwords ⊢
  cases hdrop : line.dropWhile (· ∈ [' ', '\n']) with
  | nil => rfl
  | cons c rest =>
      obtain ⟨rest', hstrip⟩ := exists_rdropWhile_cons (not_of_dropWhile_eq_cons hdrop) rest
      rw [hdrop, hstrip] at hwords
      rw [hstrip]
      change (if IsMark c then [] else _) = if IsMark c then [] else _
      refine if_congr Iff.rfl rfl ?_
      rw [hwords]
      rcases splitWords line with _ | ⟨ip, _ | ⟨dom, doms⟩⟩
      · rfl
      · exact (ite_self _).symm
      · rfl

theorem not_isMark_of_isSpace (hc : isSpace c) : ¬ IsMark c := by
  rintro (rfl | rfl | rfl) <;> exact absurd hc (by decide)

/-- Words of which the first starts with a mark give a host for each other word. -/
theorem hostsOfWords_of_isMark (hc : IsMark c) (word : Str) (words : List Str) :
    (hostsOfWords ((c :: word) :: words)).length = words.length := by
  have hne : c :: word ≠ "127.0.0.1".toList := by
    intro heq
    obtain rfl : c = '1' := List.head_eq_of_cons_eq heq
    exact absurd hc (by decide)
  rw [hostsOfWords, if_neg hne, List.length_map]

theorem dropWhile_isSpace_eq (line : Str) :
    line.dropWhile isSpace = (line.dropWhile (· ∈ [' ', '\n'])).dropWhile isSpace := by
  conv_lhs => rw [← List.takeWhile_append_dropWhile (p := (· ∈ [' ', '\n'])) (l := line)]
  refine List.dropWhile_append_of_pos fun c hc => isSpace_of_mem ?_
  simpa using List.mem_takeWhile_imp hc

theorem takeWhile_isSpace_eq (line : Str) :
    line.takeWhile isSpace = line.takeWhile (· ∈ [' ', '\n']) ++
      (line.dropWhile (· ∈ [' ', '\n'])).takeWhile isSpace := by
  conv_lhs => rw [← List.takeWhile_append_dropWhile (p := (· ∈ [' ', '\n'])) (l := line)]
  refine List.takeWhile_append_of_pos fun c hc => isSpace_of_mem ?_
  simpa using List.mem_takeWhile_imp hc

/-- A line gives what it is meant to, or else it is disguised and gives too much. -/
theorem parseLine_cases (line : Str) :
    (¬ Disguised line ∧ parseLine line = hostsOfLine line) ∨
      (Disguised line ∧ hostsOfLine line = [] ∧ parseLine line ≠ []) := by
  rw [parseLine_eq]
  unfold hostsOfLine Disguised
  rw [dropWhile_isSpace_eq, takeWhile_isSpace_eq]
  have hwords := splitWords_dropWhile (p := isSpace) (fun _ hc => hc) line
  rw [dropWhile_isSpace_eq] at hwords
  cases hblank : line.dropWhile (· ∈ [' ', '\n']) with
  | nil =>
      refine Or.inl ⟨?_, rfl⟩
      rintro ⟨-, ⟨c, rest, hdrop, -⟩, -⟩
      exact absurd hdrop.symm (List.cons_ne_nil c rest)
  | cons c rest =>
      have hc := not_of_dropWhile_eq_cons hblank
      rw [hblank] at hwords
      by_cases hspace : isSpace c
      · cases hdrop : (c :: rest).dropWhile isSpace with
        | nil =>
            rw [hdrop, splitWords_nil] at hwords
            refine Or.inl ⟨fun h => ?_, ?_⟩
            · obtain ⟨d, rest', heq, -⟩ := h.2.1
              exact absurd heq.symm (List.cons_ne_nil d rest')
            · rw [← hwords]
              exact ite_self _
        | cons d rest' =>
            have hd := eq_false_of_ne_true (not_of_dropWhile_eq_cons hdrop)
            obtain ⟨word, words, hsplit⟩ := splitWords_cons_of_not_space hd rest'
            rw [hdrop, hsplit] at hwords
            dsimp only
            rw [if_neg (not_isMark_of_isSpace hspace), ← hwords]
            by_cases hmark : IsMark d
            · have hlen := hostsOfWords_of_isMark hmark word words
              rw [if_pos hmark]
              cases words with
              | nil =>
                  refine Or.inl ⟨fun h => absurd h.1 (by simp), List.eq_nil_of_length_eq_zero hlen⟩
              | cons next words =>
                  refine Or.inr ⟨⟨?_, ⟨d, rest', rfl, hmark⟩, c, ?_, ?_⟩, rfl, ?_⟩
                  · rw [List.length_cons, List.length_cons]
                    omega
                  · rw [List.takeWhile_cons_of_pos hspace]
                    exact List.mem_append_right _ List.mem_cons_self
                  · simpa using hc
                  · exact List.ne_nil_of_length_pos (hlen ▸ Nat.succ_pos _)
            · refine Or.inl ⟨?_, (if_neg hmark).symm⟩
              rintro ⟨-, ⟨e, rest'', heq, he⟩, -⟩
              exact hmark ((List.cons.inj heq).1 ▸ he)
      · rw [List.dropWhile_cons_of_neg hspace, List.takeWhile_cons_of_neg hspace, List.append_nil]
        refine Or.inl ⟨?_, rfl⟩
        rintro ⟨-, -, e, he, hother⟩
        exact hother (by simpa using List.mem_takeWhile_imp he)

/-! ### Texts -/

theorem parseLine_eq_iff (line : Str) :
    parseLine line = hostsOfLine line ↔ ¬ Disguised line := by
  rcases parseLine_cases line with ⟨hnot, heq⟩ | ⟨hdisguised, hnone, hsome⟩
  · exact iff_of_true heq hnot
  · refine iff_of_false ?_ (not_not_intro hdisguised)
    rw [hnone]
    exact hsome

theorem length_hostsOfLine_le (line : Str) :
    (hostsOfLine line).length ≤ (parseLine line).length := by
  rcases parseLine_cases line with ⟨-, heq⟩ | ⟨-, hnone, -⟩
  · rw [heq]
  · rw [hnone]
    exact Nat.zero_le _

/-- Two texts of lists of which no part of the first is longer are the same only part by part. -/
theorem flatMap_eq_iff {α β : Type} {f g : α → List β} (hle : ∀ x, (f x).length ≤ (g x).length)
    (xs : List α) : xs.flatMap g = xs.flatMap f ↔ ∀ x ∈ xs, g x = f x := by
  have hlen : ∀ xs : List α, (xs.flatMap f).length ≤ (xs.flatMap g).length := by
    intro xs
    induction xs with
    | nil => exact Nat.le_refl 0
    | cons x xs ih =>
        rw [List.flatMap_cons, List.flatMap_cons, List.length_append, List.length_append]
        exact Nat.add_le_add (hle x) ih
  induction xs with
  | nil => simp
  | cons x xs ih =>
      rw [List.flatMap_cons, List.flatMap_cons, List.forall_mem_cons]
      constructor
      · intro heq
        have hsum := congrArg List.length heq
        rw [List.length_append, List.length_append] at hsum
        have hx := hle x
        have hxs := hlen xs
        obtain ⟨hhead, htail⟩ := List.append_inj heq (by omega)
        exact ⟨hhead, ih.mp htail⟩
      · rintro ⟨hhead, htail⟩
        rw [hhead, ih.mpr htail]

/-- `_parse_hosts` gives the hosts that the lines are meant to give exactly when no line is
disguised. -/
theorem parseHosts_eq_iff (data : Str) :
    parseHosts data = (readlines data).flatMap hostsOfLine ↔
      ∀ line ∈ readlines data, ¬ Disguised line := by
  unfold parseHosts
  rw [flatMap_eq_iff length_hostsOfLine_le]
  exact forall₂_congr fun line _ => parseLine_eq_iff line

/-- A comment after a tab gives a host with the address `#`. -/
theorem parseHosts_comment :
    parseHosts "\t# comment\n".toList = [⟨['#'], "comment".toList⟩] ∧
      (readlines "\t# comment\n".toList).flatMap hostsOfLine = [] := by
  decide

end CodeSlices.DnsRelay.DNSHostsManager
