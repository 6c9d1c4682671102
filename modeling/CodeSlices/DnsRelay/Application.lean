import CodeSlices.DnsRelay.Hosts
import CodeSlices.DnsRelay.Visibility

/-!
# The application

`DNSHostsManagerHandler.get` of `tools/dnsrelay/main.py` with `count`, `all` and `find` of
`dnshosts.py`, and the requests to both handlers in any order. The datastore counts rows up to a
limit of its own.
-/

namespace CodeSlices.DnsRelay

def World.writeAll (w : World) (texts : List Str) : World := texts.foldl World.write w

namespace DNSHostsManager

def count (limit : Nat) (hosts : Table Host) : Nat := min limit hosts.rows.length

def all (hosts : Table Host) : List Host := hosts.rows.map Prod.snd

/-- The query that it had is commented out, and nothing is found. -/
def find (query : Str) : List Host :=
  if query.length = 0 then []
  else
    let hosts : List Host := []
    hosts

end DNSHostsManager

namespace DNSHostsManagerHandler

open DNSHostsManager

/-- `"Hosts count = %d."` -/
def countText (n : Nat) : Str := "Hosts count = ".toList ++ Nat.toDigits 10 n ++ ['.']

/-- `"Loaded %d hosts."` -/
def loadedText (n : Nat) : Str := "Loaded ".toList ++ Nat.toDigits 10 n ++ " hosts.".toList

/-- `"%s, %s\n"` -/
def hostText (host : Host) : Str := host.ip ++ [',', ' '] ++ host.domain ++ ['\n']

variable (limit : Nat) (op q : Str) (page : Except DownloadError Str) (puts : Nat → PutResult)

def load (w : World) : World :=
  let w := { w with hosts := loadHosts w.hosts page puts }
  w.write (loadedText (count limit w.hosts))

/-- `get`, after its first line. -/
def dispatch (w : World) : World :=
  if op = "sum".toList then w.write (countText (count limit w.hosts))
  else if op = "listhost".toList then w.writeAll ((all w.hosts).map hostText)
  else if op = "delall".toList then
    let w := { w with hosts := delAll w.hosts }
    w.write (countText (count limit w.hosts))
  else
    let w := if op = "load".toList then load limit page puts w else w
    if op = "find".toList then w.writeAll ((find q).map hostText) else w

def get (op : Option Str) (w : World) : World :=
  dispatch limit (op.getD "sum".toList) q page puts w

end DNSHostsManagerHandler

namespace Application

open DNSHostsManager DNSHostsManagerHandler

inductive Event
  | main (request : Request) (clock : Clock) (resolvers : Resolvers)
  | manager (op : Option Str) (q : Str) (page : Except DownloadError Str) (puts : Nat → PutResult)

/-- The world after a request; `out` collects the responses. -/
def step (config : DNSConfig) (limit : Nat) (w : World) : Event → Option World
  | .main request clock resolvers => some (MainHandler.get config request clock resolvers w).world
  | .manager op q page puts => some (DNSHostsManagerHandler.get limit q page puts op w)

def managerEffects (op : Str) (page : Except DownloadError Str) (puts : Nat → PutResult) :
    List Effect :=
  if op = "delall".toList then Op.effects .delAll
  else if op = "load".toList then Op.effects (.loadHosts page puts)
  else []

/-- What a request does to the hosts table. -/
def Event.effects : Event → List Effect
  | .main _ _ _ => []
  | .manager op _ page puts => managerEffects (op.getD "sum".toList) page puts

/-- The names that have an address, in some order. -/
structure Lists (names : List Str) (m : HostsMap) : Prop where
  nodup : names.Nodup
  mem_iff : ∀ domain, domain ∈ names ↔ m domain ≠ none

/-- What the manager says of the names that have an address. -/
def report (limit : Nat) (op : Str) (m : HostsMap) (names : List Str) : List Str :=
  if op = "sum".toList ∨ op = "delall".toList then [countText (min limit names.length)]
  else if op = "load".toList then [loadedText (min limit names.length)]
  else if op = "listhost".toList then
    names.map fun domain => hostText ⟨(m domain).getD [], domain⟩
  else []

variable {config : DNSConfig} {limit : Nat} {w w' : World} {m : HostsMap} {e : Event}

theorem exists_lists {hosts : Table Host} (hrep : Represents hosts m) :
    ∃ names, Lists names m ∧ names.length = hosts.rows.length ∧
      (all hosts).map hostText = names.map fun domain => hostText ⟨(m domain).getD [], domain⟩ := by
  refine ⟨hosts.rows.map fun row => row.2.domain, ⟨?_, fun domain => ?_⟩, List.length_map _, ?_⟩
  · refine List.Nodup.map_on (fun row hrow row' hrow' => hrep.unique row hrow row' hrow') ?_
    exact List.Nodup.of_map Prod.fst hosts.nodup
  · rw [List.mem_map, Option.ne_none_iff_exists']
    constructor
    · rintro ⟨⟨k, ip, domain⟩, hrow, rfl⟩
      exact ⟨ip, (hrep.lookup domain ip).mpr ⟨k, hrow⟩⟩
    · rintro ⟨ip, hip⟩
      obtain ⟨k, hrow⟩ := (hrep.lookup domain ip).mp hip
      exact ⟨_, hrow, rfl⟩
  · rw [all, List.map_map, List.map_map]
    refine List.map_congr_left fun row hrow => ?_
    obtain ⟨k, ip, domain⟩ := row
    have hip : m domain = some ip := (hrep.lookup domain ip).mpr ⟨k, hrow⟩
    change hostText ⟨ip, domain⟩ = hostText ⟨(m domain).getD [], domain⟩
    rw [hip, Option.getD_some]

theorem writeAll_eq (w : World) (texts : List Str) :
    w.writeAll texts = { w with out := w.out ++ texts } := by
  induction texts generalizing w with
  | nil => rw [List.append_nil]; rfl
  | cons text texts ih =>
      change (w.write text).writeAll texts = _
      rw [ih]
      change ({ w with out := w.out ++ [text] ++ texts } : World) = _
      rw [List.append_assoc, List.singleton_append]

/-- What a request to the manager does, in the terms of the map. -/
theorem dispatch_spec (hrep : Represents w.hosts m) (op q : Str)
    (page : Except DownloadError Str) (puts : Nat → PutResult) :
    Represents (dispatch limit op q page puts w).hosts
        ((managerEffects op page puts).foldl Effect.apply m) ∧
      ∃ names, Lists names ((managerEffects op page puts).foldl Effect.apply m) ∧
        (dispatch limit op q page puts w).out =
          w.out ++ report limit op ((managerEffects op page puts).foldl Effect.apply m) names := by
  unfold dispatch managerEffects
  by_cases hsum : op = "sum".toList
  · obtain ⟨names, hlists, hlength, -⟩ := exists_lists hrep
    subst hsum
    refine ⟨hrep, names, hlists, ?_⟩
    rw [report, if_pos (Or.inl rfl), if_pos rfl, hlength]
    rfl
  rw [if_neg hsum]
  by_cases hlist : op = "listhost".toList
  · obtain ⟨names, hlists, hlength, hnames⟩ := exists_lists hrep
    subst hlist
    rw [if_pos rfl, writeAll_eq, hnames]
    exact ⟨hrep, names, hlists, rfl⟩
  rw [if_neg hlist]
  by_cases hdel : op = "delall".toList
  · have hrep := represents_op hrep .delAll
    obtain ⟨names, hlists, hlength, -⟩ := exists_lists hrep
    subst hdel
    refine ⟨hrep, names, hlists, ?_⟩
    rw [report, if_pos (Or.inr rfl), if_pos rfl, hlength]
    rfl
  rw [if_neg hdel, if_neg hdel]
  have hfind : (find q).map hostText = [] := by
    rw [find]
    split_ifs <;> rfl
  by_cases hload : op = "load".toList
  · have hrep := represents_op hrep (.loadHosts page puts)
    obtain ⟨names, hlists, hlength, -⟩ := exists_lists hrep
    subst hload
    refine ⟨hrep, names, hlists, ?_⟩
    rw [report, if_neg (by decide), if_pos rfl, hlength]
    rfl
  · obtain ⟨names, hlists, -, -⟩ := exists_lists hrep
    simp only [if_neg hload, hfind, writeAll_eq, List.append_nil, ite_self, List.foldl_nil]
    refine ⟨hrep, names, hlists, ?_⟩
    rw [report, if_neg (not_or.mpr ⟨hsum, hdel⟩), if_neg hload, if_neg hlist, List.append_nil]

theorem represents_step (hrep : Represents w.hosts m) (hstep : step config limit w e = some w') :
    Represents w'.hosts (e.effects.foldl Effect.apply m) := by
  cases e with
  | main request clock resolvers =>
      rw [← Option.some.inj hstep, MainHandler.hosts_get]
      exact hrep
  | manager op q page puts =>
      rw [← Option.some.inj hstep]
      exact (dispatch_spec hrep (op.getD "sum".toList) q page puts).1

/-- After any requests to both handlers the hosts table is the map of what they did to it. -/
theorem represents_exec {es : List Event} (hempty : w.hosts = Table.empty)
    (hrun : Transition.exec (step config limit) w es = some w') :
    Represents w'.hosts (mapOf (es.flatMap Event.effects)) := by
  have hgeneral : ∀ {w m}, Represents w.hosts m →
      Transition.exec (step config limit) w es = some w' →
      Represents w'.hosts ((es.flatMap Event.effects).foldl Effect.apply m) := by
    clear hempty hrun
    induction es with
    | nil =>
        intro w m hrep hrun
        exact Option.some.inj hrun ▸ hrep
    | cons e es ih =>
        intro w m hrep hrun
        obtain ⟨u, hstep, hrest⟩ := (Transition.exec_cons_eq_some_iff _).mp hrun
        rw [List.flatMap_cons, List.foldl_append]
        exact ih (represents_step hrep hstep) hrest
  exact hgeneral (hempty ▸ represents_empty) hrun

/-- What the manager writes is about the names that have an address after all that was done to the
hosts table, each once: their count, or a line for each. -/
theorem manager_reports {es : List Event} (hempty : w.hosts = Table.empty)
    (hrun : Transition.exec (step config limit) w es = some w') (op : Option Str) (q : Str)
    (page : Except DownloadError Str) (puts : Nat → PutResult) :
    ∃ names,
      Lists names (mapOf ((es ++ [Event.manager op q page puts]).flatMap Event.effects)) ∧
      (DNSHostsManagerHandler.get limit q page puts op w').out =
        w'.out ++ report limit (op.getD "sum".toList)
          (mapOf ((es ++ [Event.manager op q page puts]).flatMap Event.effects)) names := by
  have hrep := represents_exec hempty hrun
  rw [List.flatMap_append, List.flatMap_singleton, mapOf_append]
  exact (dispatch_spec hrep (op.getD "sum".toList) q page puts).2

/-- A page with one host is loaded. -/
def loaded : List Event :=
  [.manager (some "load".toList) [] (.ok "1.2.3.4 g.cn".toList) fun _ => .ok ()]

def atFirst : World := ⟨Table.empty, Table.empty, []⟩

theorem exists_loaded : ∃ w, Transition.exec (step {} 1000) atFirst loaded = some w := ⟨_, rfl⟩

theorem loaded_reports : ∃ w, Transition.exec (step {} 1000) atFirst loaded = some w ∧ ∃ names,
    Lists names (mapOf ((loaded ++ [Event.manager none [] (.ok []) fun _ => .ok ()]).flatMap
      Event.effects)) ∧
    (DNSHostsManagerHandler.get 1000 [] (.ok []) (fun _ => .ok ()) none w).out =
      w.out ++ report 1000 "sum".toList
        (mapOf ((loaded ++ [Event.manager none [] (.ok []) fun _ => .ok ()]).flatMap
          Event.effects)) names := by
  obtain ⟨w, hrun⟩ := exists_loaded
  exact ⟨w, hrun, manager_reports rfl hrun none [] (.ok []) fun _ => .ok ()⟩

/-- A request that asks the hosts table is answered with the address that its name was last given
there, whatever the cache and the web have. -/
theorem hosts_served {es : List Event} (hempty : w.hosts = Table.empty)
    (hrun : Transition.exec (step config limit) w es = some w') (request : Request) (clock : Clock)
    (resolvers : Resolvers) {ip : Str}
    (hstands : Stands (es.flatMap Event.effects) ip (swapPairs (MainHandler.requestDomain request)))
    (hip : ip ≠ cantResolve)
    (hvalid : isValidHostname (swapPairs (MainHandler.requestDomain request)) = true)
    (henabled : MainHandler.hostsEnabled config request = true) :
    MainHandler.Answered (MainHandler.get config request clock resolvers w') w'.out ip := by
  have hrep := represents_exec hempty hrun
  have hdomain : swapPairs (MainHandler.requestDomain request) ≠ [] := by
    intro hnil
    rw [hnil, MainHandler.isValidHostname_nil] at hvalid
    exact Bool.false_ne_true hvalid
  have hlength : ¬ (MainHandler.requestDomain request).length = 0 := by
    intro hzero
    rw [List.eq_nil_of_length_eq_zero hzero] at hdomain
    exact hdomain rfl
  have hlookup : DNSHosts.doHostsLookup w'.hosts (swapPairs (MainHandler.requestDomain request)) =
      ip := by
    rw [hrep.doHostsLookup_eq, mapOf_eq_some_iff.mpr hstands, Option.getD_some]
  rw [MainHandler.get, if_neg hlength, unshake_eq]
  dsimp only
  rw [if_pos hvalid, MainHandler.resolve, MainHandler.queryHosts, if_pos henabled, DNSHosts.lookup,
    if_pos (List.length_pos_of_ne_nil hdomain), hlookup]
  dsimp only
  rw [if_pos hip]
  exact ⟨rfl, rfl⟩

theorem loaded_served : ∃ w, Transition.exec (step {} 1000) atFirst loaded = some w ∧
    MainHandler.Answered (MainHandler.get {} ⟨['.', 'g', 'n', 'c'], [], 1, 0⟩ ⟨0, 0, 0, 0, 0⟩
      ⟨fun _ => .error .webRequestError, fun _ => .error .webRequestError⟩ w) w.out
      "1.2.3.4".toList := by
  obtain ⟨w, hrun⟩ := exists_loaded
  exact ⟨w, hrun, hosts_served rfl hrun _ _ _ ⟨[], [], rfl, nofun⟩ (by decide) (by decide) rfl⟩

end Application

end CodeSlices.DnsRelay
