import CodeSlices.DnsRelay.Hostname

/-!
# The page of lookupserver.com

What the resolver makes of a page that has the layout its parser is written for: the name without
its hyphens among 769 other characters, and the answer up to the next `<`. Only the first 1024
characters are read, so the answer has to end there.
-/

namespace CodeSlices.DnsRelay

namespace DNSWebLookupserverOcom

variable {d a rest A B C data : Str} {off : Nat}

/-- The name as the page shows it. -/
def shown (d : Str) : Str := d.filter fun c => c != '-'

/-- A page of the documented layout. -/
def page (A d B a C : Str) : Str := A ++ shown d ++ B ++ a ++ '<' :: C

theorem length_shown (d : Str) : d.length - d.count '-' = (shown d).length := by
  have hlen : d.length = d.count '-' + (shown d).length := by
    have hshown : (fun c => decide ¬ (c == '-') = true) = fun c : Char => c != '-' := by
      funext c
      cases h : c == '-' <;> simp [bne, h]
    rw [shown, ← List.countP_eq_length_filter, List.count, ← hshown]
    exact List.length_eq_countP_add_countP _
  rw [hlen, Nat.add_sub_cancel_left]

theorem findTag_append (ha : '<' ∉ a) : findTag (a ++ '<' :: rest) off = some (off + a.length) := by
  induction a generalizing off with
  | nil => rfl
  | cons c a ih =>
      rw [List.mem_cons, not_or] at ha
      rw [List.cons_append, findTag, if_neg (Ne.symm ha.1), ih ha.2, List.length_cons,
        Nat.add_right_comm, Nat.add_assoc]

theorem findTag_eq_none (ha : '<' ∉ a) : findTag a off = none := by
  induction a generalizing off with
  | nil => rfl
  | cons c a ih =>
      rw [List.mem_cons, not_or] at ha
      rw [findTag, if_neg (Ne.symm ha.1), ih ha.2]

/-- The part of the page that is looked at: the answer and what follows, cut at the end of what is
read. -/
theorem drop_take_page (hAB : A.length + B.length = addOffset) (n : Nat) :
    ((page A d B a C).take n).drop (addOffset + (shown d).length)
      = (a ++ '<' :: C).take (n - (addOffset + (shown d).length)) := by
  have hlen : (A ++ shown d ++ B).length = addOffset + (shown d).length := by
    rw [List.length_append, List.length_append, ← hAB]
    omega
  rw [List.drop_take, page, List.append_assoc _ a, ← hlen, List.drop_left]

/-- What the parser makes of the page: the answer when it ends before the cut, else nothing. -/
theorem parseAddress_page (hAB : A.length + B.length = addOffset) (ha : '<' ∉ a) (n : Nat)
    (hn : addOffset ≤ n) :
    parseAddress d ((page A d B a C).take n)
      = if addOffset + (shown d).length + a.length < n then a else [] := by
  have hle : d.count '-' ≤ d.length := List.count_le_length
  have hpos : ((page A d B a C).take n).length ≠ 0 := by
    rw [List.length_take, page, List.length_append, List.length_cons]
    unfold addOffset at hn
    omega
  unfold parseAddress
  rw [if_neg hpos]
  dsimp only
  rw [Nat.add_sub_assoc hle, length_shown, drop_take_page hAB]
  split_ifs with hlt
  · obtain ⟨k, hk⟩ : ∃ k, n - (addOffset + (shown d).length) = a.length + (k + 1) :=
      ⟨n - (addOffset + (shown d).length + a.length) - 1, by omega⟩
    rw [hk, List.take_length_add_append, List.take_succ_cons, findTag_append ha, Nat.zero_add]
    exact List.take_left
  · rw [List.take_append_of_le_length (by omega), findTag_eq_none]
    exact fun hmem => ha (List.mem_of_mem_take hmem)

theorem length_pos_of_isValidHostname (hvalid : isValidHostname d) : 0 < d.length := by
  apply List.length_pos_of_ne_nil
  rintro rfl
  exact absurd hvalid (by decide)

theorem lookup_page {fetch : Fetch} (hvalid : isValidHostname d)
    (hAB : A.length + B.length = addOffset) (hne : a ≠ []) (ha : '<' ∉ a)
    (hpage : fetch web.server (web.target d) = .ok (page A d B a C)) :
    web.lookup fetch d
      = .ok (if (shown d).length + a.length ≤ 254 ∧ a ≠ d then a else cantResolve) := by
  have hparse := parseAddress_page (d := d) (C := C) hAB ha 1024 (by decide)
  unfold DNSWeb.lookup DNSWeb.doWebLookup
  rw [if_pos (length_pos_of_isValidHostname hvalid), hpage]
  change Except.ok (if (parseAddress d ((page A d B a C).take 1024)).length = 0 ∨
    parseAddress d ((page A d B a C).take 1024) = d then cantResolve else
      parseAddress d ((page A d B a C).take 1024)) = _
  unfold addOffset at hparse
  by_cases hfits : (shown d).length + a.length ≤ 254
  · rw [if_pos (by omega)] at hparse
    rw [hparse]
    by_cases heq : a = d
    · rw [if_pos (Or.inr heq), if_neg fun h => h.2 heq]
    · have hlen : a.length ≠ 0 := fun hzero => hne (List.eq_nil_of_length_eq_zero hzero)
      rw [if_neg (not_or.mpr ⟨hlen, heq⟩), if_pos ⟨hfits, heq⟩]
  · rw [if_neg (by omega)] at hparse
    rw [hparse, if_pos (Or.inl List.length_nil), if_neg fun h => hfits h.1]

/-- The answer of the page is found exactly when there is nothing to find or it ends before the
cut. -/
theorem lookup_page_iff (fetch : Fetch) (d A B a C : Str) (hvalid : isValidHostname d)
    (hAB : A.length + B.length = 769) (hne : a ≠ []) (ha : '<' ∉ a)
    (hpage : fetch web.server (web.target d) = .ok (page A d B a C)) :
    web.lookup fetch d = .ok (if a = d then cantResolve else a) ↔
      a = d ∨ a = cantResolve ∨ (shown d).length + a.length ≤ 254 := by
  rw [lookup_page hvalid hAB hne ha hpage]
  by_cases heq : a = d
  · rw [if_pos heq, if_neg fun h => h.2 heq]
    exact iff_of_true rfl (Or.inl heq)
  · rw [if_neg heq]
    by_cases hfits : (shown d).length + a.length ≤ 254
    · rw [if_pos ⟨hfits, heq⟩]
      exact iff_of_true rfl (Or.inr (Or.inr hfits))
    · rw [if_neg fun h => hfits h.1]
      constructor
      · intro hanswer
        exact Or.inr (Or.inl (Except.ok.inj hanswer).symm)
      · rintro (h | h | h)
        · exact absurd h heq
        · rw [h]
        · exact absurd h hfits

theorem lookup_page_gcn :
    web.lookup (fun _ _ => .ok (page (List.replicate 769 'x') "g.cn".toList [] "1.2.3.4".toList []))
        "g.cn".toList = .ok "1.2.3.4".toList ↔
      "1.2.3.4".toList = "g.cn".toList ∨ "1.2.3.4".toList = cantResolve ∨ 4 + 7 ≤ 254 :=
  lookup_page_iff _ _ (List.replicate 769 'x') [] "1.2.3.4".toList [] (by decide)
    (by rw [List.length_replicate]; rfl) (by decide) (by decide) rfl

/-- A name of four labels of 62 characters. -/
def longName : Str :=
  ['.'].intercalate (List.replicate 4 (List.replicate 62 'a'))

/-- The address of a name of 251 characters is not found: the page is cut in the middle of it. -/
theorem lookup_longName :
    isValidHostname longName ∧
      web.lookup (fun _ _ => .ok (page (List.replicate 769 'x') longName [] "1.2.3.4".toList []))
        longName ≠ .ok (if "1.2.3.4".toList = longName then cantResolve else "1.2.3.4".toList) := by
  have hvalid : isValidHostname longName := by decide +kernel
  have hlen : ¬ (shown longName).length + "1.2.3.4".toList.length ≤ 254 := by decide +kernel
  refine ⟨hvalid, ?_⟩
  rw [lookup_page hvalid (by rw [List.length_replicate]; rfl) (by decide) (by decide) rfl,
    if_neg fun h => hlen h.1, if_neg (by decide)]
  intro hanswer
  exact absurd (Except.ok.inj hanswer) (by decide)

end DNSWebLookupserverOcom

end CodeSlices.DnsRelay
