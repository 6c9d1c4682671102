import CodeSlices.DnsRelay.Handler

/-!
# Valid host names

The language that `DNS.isValidHostname` of `tools/dnsrelay/dns.py` accepts, and why no name that
`MainHandler.get` hands to a web resolver alters the request the resolver sends.
-/

namespace CodeSlices.DnsRelay

def IsLabelChar (c : Char) : Prop :=
  ('A' ≤ c ∧ c ≤ 'Z') ∨ ('a' ≤ c ∧ c ≤ 'z') ∨ ('0' ≤ c ∧ c ≤ '9') ∨ c = '-'

structure IsLabel (label : Str) : Prop where
  pos : 1 ≤ label.length
  le : label.length ≤ 63
  chars : ∀ c ∈ label, IsLabelChar c
  head : label.head? ≠ some '-'
  last : label.getLast? ≠ some '-'

/-- At most 255 characters: two labels or more with dots between them, and perhaps one at the
end. -/
def IsHostname (h : Str) : Prop :=
  h.length ≤ 255 ∧ ∃ labels : List Str, 2 ≤ labels.length ∧ (∀ label ∈ labels, IsLabel label) ∧
    (h = ['.'].intercalate labels ∨ h = ['.'].intercalate labels ++ ['.'])

variable {s label : Str} {labels : List Str} {c : Char}

/-! ### Labels -/

theorem isLabelChar_iff : IsLabelChar c ↔ c.isAlphanum ∨ c = '-' := by
  have hupper : c.isUpper = true ↔ 'A' ≤ c ∧ c ≤ 'Z' := decide_eq_true_iff
  have hlower : c.isLower = true ↔ 'a' ≤ c ∧ c ≤ 'z' :=
    Bool.and_eq_true_iff.trans (and_congr decide_eq_true_iff decide_eq_true_iff)
  have hdigit : c.isDigit = true ↔ '0' ≤ c ∧ c ≤ '9' :=
    Bool.and_eq_true_iff.trans (and_congr decide_eq_true_iff decide_eq_true_iff)
  have halpha : c.isAlpha = true ↔ c.isUpper = true ∨ c.isLower = true := Bool.or_eq_true_iff
  have halphanum : c.isAlphanum = true ↔ c.isAlpha = true ∨ c.isDigit = true :=
    Bool.or_eq_true_iff
  rw [halphanum, halpha, hupper, hlower, hdigit, or_assoc, or_assoc]
  exact Iff.rfl

theorem disallowed_eq_false_iff : disallowed label = false ↔ ∀ c ∈ label, IsLabelChar c := by
  unfold disallowed
  simp only [List.any_eq_false, Bool.not_eq_true', Bool.not_eq_false, isLabelChar_iff,
    Bool.or_eq_true, beq_iff_eq]

theorem isValidLabel_iff : isValidLabel label ↔ IsLabel label := by
  have hpos : label.isEmpty = false ↔ 1 ≤ label.length := by
    rw [List.isEmpty_eq_false_iff]
    exact List.length_pos_iff.symm
  unfold isValidLabel
  simp only [Bool.and_eq_true, Bool.not_eq_true', disallowed_eq_false_iff, decide_eq_true_eq,
    bne_iff_ne, hpos]
  constructor
  · rintro ⟨⟨⟨⟨hlow, hhigh⟩, hhead⟩, hlast⟩, hchars⟩
    exact ⟨hlow, hhigh, hchars, hhead, hlast⟩
  · rintro ⟨hlow, hhigh, hchars, hhead, hlast⟩
    exact ⟨⟨⟨⟨hlow, hhigh⟩, hhead⟩, hlast⟩, hchars⟩

theorem IsLabel.ne_nil (hlabel : IsLabel label) : label ≠ [] :=
  List.ne_nil_of_length_pos hlabel.pos

theorem IsLabel.dot_notMem (hlabel : IsLabel label) : '.' ∉ label := by
  intro hmem
  have hchar := hlabel.chars '.' hmem
  revert hchar
  unfold IsLabelChar
  decide

/-! ### Names -/

theorem two_le_length_splitOn_iff : 2 ≤ (s.splitOn '.').length ↔ '.' ∈ s := by
  constructor
  · intro hlen
    by_contra hmem
    rw [List.splitOn_eq_singleton hmem, List.length_singleton] at hlen
    omega
  · intro hmem
    obtain ⟨front, back, rfl⟩ := List.append_of_mem hmem
    rw [List.splitOn_append_cons_self, List.length_append]
    have hfront := List.length_pos_of_ne_nil (List.splitOn_ne_nil '.' front)
    have hback := List.length_pos_of_ne_nil (List.splitOn_ne_nil '.' back)
    omega

/-- A name whose labels are not empty does not end with a dot. -/
theorem getLast?_ne_dot (hlabels : ∀ label ∈ s.splitOn '.', label ≠ []) :
    s.getLast? ≠ some '.' := by
  intro hlast
  obtain ⟨front, rfl⟩ := List.getLast?_eq_some_iff.mp hlast
  refine hlabels [] ?_ rfl
  rw [List.splitOn_append_cons_self, List.splitOn_nil]
  exact List.mem_append_right _ List.mem_cons_self

/-- A single trailing dot is taken off. -/
def withoutDot (h : Str) : Str := if h.getLast? = some '.' then h.dropLast else h

theorem eq_withoutDot (h : Str) : h = withoutDot h ∨ h = withoutDot h ++ ['.'] := by
  unfold withoutDot
  split_ifs with hlast
  · obtain ⟨front, rfl⟩ := List.getLast?_eq_some_iff.mp hlast
    rw [List.dropLast_concat]
    exact Or.inr rfl
  · exact Or.inl rfl

theorem withoutDot_eq (hlast : s.getLast? ≠ some '.') {h : Str} (hs : h = s ∨ h = s ++ ['.']) :
    withoutDot h = s := by
  unfold withoutDot
  rcases hs with rfl | rfl
  · rw [if_neg hlast]
  · rw [if_pos List.getLast?_concat, List.dropLast_concat]

theorem isValidHostname_eq (h : Str) :
    isValidHostname h = true ↔ h.length ≤ 255 ∧ '.' ∈ withoutDot h ∧
      ∀ label ∈ (withoutDot h).splitOn '.', IsLabel label := by
  unfold isValidHostname
  change (if 255 < h.length then false else
    if '.' ∉ withoutDot h then false else ((withoutDot h).splitOn '.').all isValidLabel) = true ↔ _
  simp only [← isValidLabel_iff]
  split_ifs with hlen hdot
  · simp [Nat.not_le_of_lt hlen]
  · simp [hdot, Nat.le_of_not_lt hlen]
  · simp [hdot]

theorem isValidHostname_iff_isHostname (h : Str) : isValidHostname h = true ↔ IsHostname h := by
  rw [isValidHostname_eq]
  refine and_congr_right fun _ => ?_
  constructor
  · rintro ⟨hdot, hlabels⟩
    refine ⟨(withoutDot h).splitOn '.', two_le_length_splitOn_iff.mpr hdot, hlabels, ?_⟩
    rw [List.intercalate_splitOn]
    exact eq_withoutDot h
  · rintro ⟨labels, hlen, hlabels, hs⟩
    have hsplit : (['.'].intercalate labels).splitOn '.' = labels := by
      apply List.splitOn_intercalate
      · exact fun label hlabel => (hlabels label hlabel).dot_notMem
      · exact List.ne_nil_of_length_pos (by omega)
    have hstrip : withoutDot h = ['.'].intercalate labels := by
      refine withoutDot_eq (getLast?_ne_dot ?_) hs
      rw [hsplit]
      exact fun label hlabel => (hlabels label hlabel).ne_nil
    rw [hstrip, ← two_le_length_splitOn_iff, hsplit]
    exact ⟨hlen, hlabels⟩

/-! ### The request a name is put into -/

/-- The characters that would end the request line or give the target another form. -/
def structural : Str := [' ', '\r', '\n', '%', '&', '/', '?']

def Harmless (domain : Str) : Prop := ∀ c ∈ domain, c ∉ structural

/-- The first line that `httplib` sends. -/
def requestLine (web : DNSWeb) (domain : Str) : Str :=
  "GET ".toList ++ web.target domain ++ " HTTP/1.1\r\n".toList

theorem IsLabelChar.notMem_structural (hchar : IsLabelChar c) : c ∉ structural := by
  intro hmem
  simp only [structural, List.mem_cons, List.not_mem_nil, or_false] at hmem
  unfold IsLabelChar at hchar
  rcases hmem with rfl | rfl | rfl | rfl | rfl | rfl | rfl
  all_goals revert hchar; decide

theorem mem_intercalate (hmem : c ∈ ['.'].intercalate labels) :
    c = '.' ∨ ∃ label ∈ labels, c ∈ label := by
  induction labels with
  | nil => exact absurd hmem List.not_mem_nil
  | cons label labels ih =>
      cases labels with
      | nil =>
          rw [List.intercalate_singleton] at hmem
          exact Or.inr ⟨label, List.mem_cons_self, hmem⟩
      | cons next labels =>
          rw [List.intercalate_cons_cons, List.mem_append, List.mem_append,
            List.mem_singleton] at hmem
          rcases hmem with (hmem | hmem) | hmem
          · exact Or.inr ⟨label, List.mem_cons_self, hmem⟩
          · exact Or.inl hmem
          · refine (ih hmem).imp_right ?_
            rintro ⟨other, hother, hmem⟩
            exact ⟨other, List.mem_cons_of_mem label hother, hmem⟩

theorem IsHostname.harmless {h : Str} (hhost : IsHostname h) : Harmless h := by
  obtain ⟨-, labels, -, hlabels, hs⟩ := hhost
  intro c hc
  have hchar : c = '.' ∨ ∃ label ∈ labels, c ∈ label := by
    rcases hs with rfl | rfl
    · exact mem_intercalate hc
    · rcases List.mem_append.mp hc with hc | hc
      · exact mem_intercalate hc
      · exact Or.inl (List.mem_singleton.mp hc)
  rcases hchar with rfl | ⟨label, hlabel, hc⟩
  · decide
  · exact ((hlabels label hlabel).chars c hc).notMem_structural

theorem isValidHostname_harmless {h : Str} (hvalid : isValidHostname h) : Harmless h :=
  ((isValidHostname_iff_isHostname h).mp hvalid).harmless

theorem Harmless.filter_eq_nil {domain : Str} (hdomain : Harmless domain) :
    domain.filter (fun c => decide (c ∈ structural)) = [] := by
  rw [List.filter_eq_nil_iff]
  exact fun c hc => by simpa using hdomain c hc

/-- The target of a resolver is a text with the name put into it. -/
theorem exists_target_eq {web : DNSWeb}
    (hweb : web ∈ [DNSWebLookupserverOcom.web, DNSWebBlokeOcom.web]) :
    ∃ before after : Str, ∀ domain, web.target domain = before ++ domain ++ after := by
  rcases List.mem_cons.mp hweb with rfl | hweb
  · exact ⟨_, _, fun _ => rfl⟩
  · obtain rfl := List.mem_singleton.mp hweb
    refine ⟨"/cgi-bin/nslookup?".toList, [], fun domain => ?_⟩
    rw [List.append_nil]
    rfl

theorem Harmless.filter_requestLine {domain : Str} (hdomain : Harmless domain) {web : DNSWeb}
    (hweb : web ∈ [DNSWebLookupserverOcom.web, DNSWebBlokeOcom.web]) :
    (requestLine web domain).filter (fun c => decide (c ∈ structural))
      = (requestLine web []).filter (fun c => decide (c ∈ structural)) := by
  obtain ⟨before, after, htarget⟩ := exists_target_eq hweb
  unfold requestLine
  rw [htarget, htarget, List.append_nil]
  simp only [List.filter_append, hdomain.filter_eq_nil, List.append_nil]

/-! ### The names the handler looks up -/

namespace MainHandler

variable {config : DNSConfig} {domain : Str} {clock : Clock} {R R' : Resolvers}

theorem resolve_congr (config : DNSConfig) (request : Request) (clock : Clock) (w : World)
    (hlookupserver : R.lookupserver domain = R'.lookupserver domain)
    (hbloke : R.bloke domain = R'.bloke domain) :
    resolve config request domain clock R w = resolve config request domain clock R' w := by
  unfold resolve queryWeb
  rw [hlookupserver, hbloke]

/-- A handler that is given other resolvers does the same if they agree on the valid names. -/
theorem get_congr (config : DNSConfig) (request : Request) (clock : Clock) (w : World)
    (hagree : ∀ domain, isValidHostname domain →
      R.lookupserver domain = R'.lookupserver domain ∧ R.bloke domain = R'.bloke domain) :
    get config request clock R w = get config request clock R' w := by
  unfold get
  split_ifs
  · rfl
  · rw [unshake_eq]
    dsimp only
    split_ifs with hvalid
    · obtain ⟨hlookupserver, hbloke⟩ := hagree _ hvalid
      exact resolve_congr config request clock w hlookupserver hbloke
    · rfl

end MainHandler

/-- The accepted names, and what follows for the resolvers: the handler asks them for nothing but
names without a structural character, which leave the form of the request line alone. -/
theorem isValidHostname_language :
    (∀ h, isValidHostname h = true ↔ IsHostname h) ∧
    (∀ config request clock w (R R' : Resolvers),
      (∀ domain, Harmless domain →
        R.lookupserver domain = R'.lookupserver domain ∧ R.bloke domain = R'.bloke domain) →
      MainHandler.get config request clock R w = MainHandler.get config request clock R' w) ∧
    ∀ domain, Harmless domain → ∀ web ∈ [DNSWebLookupserverOcom.web, DNSWebBlokeOcom.web],
      (requestLine web domain).filter (fun c => decide (c ∈ structural))
        = (requestLine web []).filter (fun c => decide (c ∈ structural)) := by
  refine ⟨isValidHostname_iff_isHostname, ?_, ?_⟩
  · intro config request clock w R R' hagree
    apply MainHandler.get_congr
    intro domain hvalid
    exact hagree domain (isValidHostname_harmless hvalid)
  · intro domain hdomain web hweb
    exact hdomain.filter_requestLine hweb

end CodeSlices.DnsRelay
