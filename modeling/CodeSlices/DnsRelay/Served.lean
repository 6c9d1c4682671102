import CodeSlices.DnsRelay.Handler
import CodeSlices.Lib.Transition

/-!
# What the relay serves and stores

Runs of requests, each with the pages the two servers send for it. A text cut out of a page is not
looked at any further, so it is served and cached whatever it is.
-/

namespace CodeSlices.DnsRelay

open CodeSlices.Transition

/-- A decimal number from 0 to 255. -/
def isOctet (s : Str) : Bool :=
  !s.isEmpty && s.length ≤ 3 && s.all Char.isDigit &&
    s.foldl (fun n c => 10 * n + (c.toNat - '0'.toNat)) 0 ≤ 255

def isDottedQuad (s : Str) : Bool :=
  (s.splitOn '.').length == 4 && (s.splitOn '.').all isOctet

/-- The resolvers of `main.py` over what `urlfetch` gives. -/
def webResolvers (fetch : Fetch) : Resolvers where
  lookupserver := DNSWebLookupserverOcom.web.lookup fetch
  bloke := DNSWebBlokeOcom.web.lookup fetch

namespace Served

structure Event where
  request : Request
  clock : Clock
  fetch : Fetch

/-- The world after a request; `out` collects the responses. -/
def step (config : DNSConfig) (w : World) (e : Event) : Option World :=
  some (MainHandler.get config e.request e.clock (webResolvers e.fetch) w).world

def Event.domain (e : Event) : Str := swapPairs (MainHandler.requestDomain e.request)

/-- One of the two parsers cut the text out of the page that its server sent for the request. -/
def Event.Scraped (e : Event) (text : Str) : Prop :=
  ∃ web ∈ [DNSWebLookupserverOcom.web, DNSWebBlokeOcom.web], ∃ body,
    e.fetch web.server (web.target e.domain) = .ok body ∧
      text = web.parseAddress e.domain (body.take web.readMax) ∧ text ≠ [] ∧ text ≠ e.domain

/-- Everything written and every address in the tables. -/
structure AllValues (P : Str → Prop) (w : World) : Prop where
  out : ∀ text ∈ w.out, P text
  hosts : ∀ row ∈ w.hosts.rows, P row.2.ip
  cache : ∀ row ∈ w.cache.rows, P row.2.ip

variable {P Q : Str → Prop} {w : World}

theorem AllValues.mono (hPQ : ∀ text, P text → Q text) (hw : AllValues P w) : AllValues Q w :=
  ⟨fun text htext => hPQ _ (hw.out text htext), fun row hrow => hPQ _ (hw.hosts row hrow),
    fun row hrow => hPQ _ (hw.cache row hrow)⟩

theorem AllValues.write (hw : AllValues P w) {text : Str} (htext : P text) :
    AllValues P (w.write text) := by
  refine ⟨fun written hwritten => ?_, hw.hosts, hw.cache⟩
  rcases List.mem_append.mp hwritten with hwritten | hwritten
  · exact hw.out written hwritten
  · exact List.mem_singleton.mp hwritten ▸ htext

theorem AllValues.updateCache (hw : AllValues P w) (now : DateTime) (domain : Str) {ip : Str}
    (hip : P ip) (hit : Bool) : AllValues P (w.updateCache now domain ip hit) := by
  refine ⟨hw.out, hw.hosts, fun row hrow => ?_⟩
  change row ∈ (DNSCacheManager.update w.cache now domain ip hit).rows at hrow
  rw [DNSCacheManager.update] at hrow
  cases hselect : selectCache w.cache domain with
  | some found =>
      rw [hselect] at hrow
      rcases Table.mem_put.mp hrow with rfl | ⟨hrow, _⟩
      · change P (found.2.touch now ip hit).ip
        rw [touch_ip]
        split
        · exact hip
        · exact hw.cache found (Table.mem_of_select hselect).1
      · exact hw.cache row hrow
  | none =>
      rw [hselect] at hrow
      rcases Table.mem_put.mp hrow with rfl | ⟨hrow, _⟩
      · exact hip
      · exact hw.cache row hrow

theorem AllValues.hostsLookup (hw : AllValues P w) (hcant : P cantResolve) (now : DateTime)
    (domain : Str) : P (DNSHosts.lookup w now domain).1 ∧
      AllValues P (DNSHosts.lookup w now domain).2 := by
  have haddress : P (DNSHosts.lookup w now domain).1 := by
    unfold DNSHosts.lookup DNSHosts.doHostsLookup
    dsimp only
    split
    · split
      · rename_i k host hselect
        split
        · exact hcant
        · exact hw.hosts _ (Table.mem_of_select hselect).1
      · exact hcant
    · exact hcant
  exact ⟨haddress, hw.updateCache now domain haddress _⟩

theorem AllValues.cacheLookup (hw : AllValues P w) (hcant : P cantResolve) (cm : DNSCacheManager)
    (now : DateTime) (domain : Str) : P (cm.lookup w.cache now domain) := by
  rw [DNSCacheManager.lookup]
  cases hselect : selectCache w.cache domain with
  | none =>
      rw [DNSCacheManager.get, hselect]
      exact hcant
  | some row =>
      rw [DNSCacheManager.get, hselect]
      change P (if row.2.ip = cantResolve then cantResolve else if _ then row.2.ip else cantResolve)
      split_ifs
      · exact hcant
      · exact hw.cache row (Table.mem_of_select hselect).1
      · exact hcant

/-! ### What the handler does to the values -/

section Handler

open MainHandler

/-- The rest of the handler only adds values with `P`. -/
def Keeps (P : Str → Prop) (next : Option Str → World → Outcome) : Prop :=
  ∀ ret w, (∀ text, ret = some text → P text) → AllValues P w → AllValues P (next ret w).world

variable {config : DNSConfig} {request : Request} {now : DateTime} {domain : Str}
  {next : Option Str → World → Outcome}

theorem keeps_giveUp (hcant : P cantResolve) :
    Keeps P fun ret w => giveUp config now domain ret w := by
  intro ret w hret hw
  unfold giveUp
  split
  · cases ret with
    | some ret => exact (hw.updateCache now domain (hret ret rfl) false).write hcant
    | none => exact hw
  · exact hw.write hcant

theorem keeps_answer (hnext : Keeps P next) {answer : Str} (hanswer : P answer) {o : Outcome}
    (ho : AllValues P o.world) (hw : AllValues P w) :
    AllValues P (if answer ≠ cantResolve then o else next (some answer) w).world := by
  split
  · exact ho
  · exact hnext (some answer) w (fun text htext => Option.some.inj htext ▸ hanswer) hw

theorem keeps_queryWeb {resolver : Str → Except WebRequestError Str}
    (hresolver : ∀ answer, resolver domain = .ok answer → P answer) (hnext : Keeps P next) :
    Keeps P fun ret w => queryWeb config now domain resolver ret w next := by
  intro ret w hret hw
  unfold queryWeb
  cases hresolve : resolver domain with
  | error e => exact hnext ret w hret hw
  | ok answer =>
      have hanswer := hresolver answer hresolve
      refine keeps_answer hnext hanswer ?_ hw
      dsimp only
      split
      · exact (hw.write hanswer).updateCache now domain hanswer true
      · exact hw.write hanswer

theorem keeps_queryCache (hcant : P cantResolve) (hnext : Keeps P next) :
    Keeps P fun ret w => queryCache config request now domain ret w next := by
  intro ret w hret hw
  unfold queryCache
  split
  · have hanswer := hw.cacheLookup hcant ⟨config.cacheLife⟩ now domain
    exact keeps_answer hnext hanswer (hw.write hanswer) hw
  · exact hnext ret w hret hw

theorem allValues_resolve (hcant : P cantResolve) (hw : AllValues P w) (clock : Clock)
    {resolvers : Resolvers}
    (hlookupserver : ∀ answer, resolvers.lookupserver domain = .ok answer → P answer)
    (hbloke : ∀ answer, resolvers.bloke domain = .ok answer → P answer) :
    AllValues P (resolve config request domain clock resolvers w).world := by
  unfold resolve queryHosts
  split
  · obtain ⟨haddress, hw'⟩ := hw.hostsLookup hcant clock.hostsUpdate domain
    exact keeps_answer (keeps_queryCache hcant (keeps_queryWeb hlookupserver
      (keeps_queryWeb hbloke (keeps_giveUp hcant)))) haddress (hw'.write haddress) hw'
  · exact keeps_queryCache hcant (keeps_queryWeb hlookupserver
      (keeps_queryWeb hbloke (keeps_giveUp hcant))) none w nofun hw

theorem allValues_get (hcant : P cantResolve) (hw : AllValues P w) (clock : Clock)
    {resolvers : Resolvers}
    (hlookupserver : ∀ answer, resolvers.lookupserver (swapPairs (requestDomain request)) =
      .ok answer → P answer)
    (hbloke : ∀ answer, resolvers.bloke (swapPairs (requestDomain request)) = .ok answer →
      P answer) :
    AllValues P (MainHandler.get config request clock resolvers w).world := by
  unfold MainHandler.get
  split
  · exact hw.write hcant
  · rw [unshake_eq]
    dsimp only
    split
    · exact allValues_resolve hcant hw clock hlookupserver hbloke
    · exact hw.write hcant

end Handler

/-! ### Runs of requests -/

theorem lookup_eq_ok {web : DNSWeb} {fetch : Fetch} {domain answer : Str}
    (hlookup : web.lookup fetch domain = .ok answer) :
    answer = cantResolve ∨ ∃ body, fetch web.server (web.target domain) = .ok body ∧
      answer = web.parseAddress domain (body.take web.readMax) ∧ answer ≠ [] ∧ answer ≠ domain := by
  unfold DNSWeb.lookup DNSWeb.doWebLookup at hlookup
  by_cases hlen : 0 < domain.length
  · rw [if_pos hlen] at hlookup
    cases hfetch : fetch web.server (web.target domain) with
    | error e =>
        rw [hfetch] at hlookup
        cases hlookup
    | ok body =>
        rw [hfetch] at hlookup
        have hanswer := (Except.ok.inj hlookup).symm
        by_cases hbad : (web.parseAddress domain (body.take web.readMax)).length = 0 ∨
            web.parseAddress domain (body.take web.readMax) = domain
        · exact Or.inl (hanswer.trans (if_pos hbad))
        · rw [if_neg hbad] at hanswer
          obtain ⟨hnil, hname⟩ := not_or.mp hbad
          refine Or.inr ⟨body, rfl, hanswer, hanswer ▸ fun heq => hnil ?_, hanswer ▸ hname⟩
          rw [heq, List.length_nil]
  · rw [if_neg hlen] at hlookup
    have hanswer := (Except.ok.inj hlookup).symm
    exact Or.inl (hanswer.trans (ite_self _))

/-- An address that may be answered: `-` or four numbers. -/
def IsAddress (text : Str) : Prop := text = cantResolve ∨ isDottedQuad text

theorem allValues_step {config : DNSConfig} {w : World} {e : Event}
    (hP : ∀ text, IsAddress text ∨ e.Scraped text → P text) (hw : AllValues P w) :
    AllValues P (MainHandler.get config e.request e.clock (webResolvers e.fetch) w).world := by
  have hresolver : ∀ web ∈ [DNSWebLookupserverOcom.web, DNSWebBlokeOcom.web], ∀ answer,
      web.lookup e.fetch e.domain = .ok answer → P answer := by
    intro web hweb answer hlookup
    rcases lookup_eq_ok hlookup with hcant | ⟨body, hbody, hscraped⟩
    · exact hP answer (Or.inl (Or.inl hcant))
    · exact hP answer (Or.inr ⟨web, hweb, body, hbody, hscraped⟩)
  exact allValues_get (hP _ (Or.inl (Or.inl rfl))) hw e.clock
    (hresolver _ List.mem_cons_self) (hresolver _ (List.mem_cons_of_mem _ List.mem_cons_self))

theorem allValues_exec {config : DNSConfig} {w' : World} {es : List Event}
    (hP : ∀ e ∈ es, ∀ text, IsAddress text ∨ e.Scraped text → P text) (hw : AllValues P w)
    (hrun : exec (step config) w es = some w') : AllValues P w' := by
  induction es generalizing w with
  | nil => exact Option.some.inj hrun ▸ hw
  | cons e es ih =>
      obtain ⟨u, hu, hrest⟩ := (exec_cons_eq_some_iff (step config)).mp hrun
      obtain rfl := Option.some.inj hu
      refine ih (fun e' he' => hP e' (List.mem_cons_of_mem e he')) ?_ hrest
      exact allValues_step (hP e List.mem_cons_self) hw

/-- Whatever the pages are, everything served and stored is an address or was cut by one of the
parsers out of a page sent for one of the requests. -/
theorem served_address_or_scraped {config : DNSConfig} {w w' : World} {es : List Event}
    (hw : AllValues IsAddress w) (hrun : exec (step config) w es = some w') :
    AllValues (fun text => IsAddress text ∨ ∃ e ∈ es, e.Scraped text) w' := by
  refine allValues_exec (fun e he text htext => ?_) (hw.mono fun _ => Or.inl) hrun
  exact htext.imp_right fun hscraped => ⟨e, he, hscraped⟩

/-- A page of 15 lines whose last one is `x foo`. -/
def strangePage : Str := List.replicate 14 '\n' ++ ['x', ' ', 'f', 'o', 'o', '\n']

def strangeRequest : Event :=
  ⟨⟨['.', 'g', 'n', 'c'], [], 0, 0⟩, ⟨0, 0, 0, 0, 0⟩, fun _ _ => .ok strangePage⟩

theorem strangeRequest_serves : ∃ w, exec (step {}) ⟨Table.empty, Table.empty, []⟩
      [strangeRequest] = some w ∧ w.out = [['f', 'o', 'o']] ∧
    w.cache.rows.map (fun row => row.2.ip) = [['f', 'o', 'o']] ∧
      ¬ IsAddress ['f', 'o', 'o'] := by
  have hrun : ((exec (step {}) ⟨Table.empty, Table.empty, []⟩ [strangeRequest]).map fun w =>
      (w.out, w.cache.rows.map (fun row => row.2.ip))) =
        some ([['f', 'o', 'o']], [['f', 'o', 'o']]) := by decide
  obtain ⟨w, hw, hfinal⟩ := Option.map_eq_some_iff.mp hrun
  obtain ⟨hout, hcache⟩ := Prod.mk.inj hfinal
  exact ⟨w, hw, hout, hcache, by unfold IsAddress; decide⟩

theorem strangeRequest_scraped : ∃ w, exec (step {}) ⟨Table.empty, Table.empty, []⟩
      [strangeRequest] = some w ∧ w.out = [['f', 'o', 'o']] ∧
    AllValues (fun text => IsAddress text ∨ ∃ e ∈ [strangeRequest], e.Scraped text) w := by
  have hrun : ((exec (step {}) ⟨Table.empty, Table.empty, []⟩ [strangeRequest]).map fun w =>
      w.out) = some [['f', 'o', 'o']] := by decide
  obtain ⟨w, hw, hout⟩ := Option.map_eq_some_iff.mp hrun
  have hinit : AllValues IsAddress ⟨Table.empty, Table.empty, []⟩ :=
    ⟨fun _ h => absurd h List.not_mem_nil, fun _ h => absurd h List.not_mem_nil,
      fun _ h => absurd h List.not_mem_nil⟩
  exact ⟨w, hw, hout, served_address_or_scraped hinit hw⟩

end Served

end CodeSlices.DnsRelay
