import Mathlib.Data.List.Induction
import Mathlib.Logic.Function.Basic
import CodeSlices.DnsRelay.Handler

/-!
# The hosts table

`DNSHostsManager` of `tools/dnsrelay/dnshosts.py` over the `Host` rows of the datastore, as the map
from names to addresses that `DNSHosts.do_hosts_lookup` reads. A put may be refused, and then the
datastore is as it was.
-/

namespace CodeSlices.DnsRelay

inductive CapabilityDisabledError
  | capabilityDisabledError
  deriving DecidableEq

/-- What the datastore answers to a put. -/
abbrev PutResult := Except CapabilityDisabledError Unit

/-- `SELECT * FROM Host WHERE domain = :1 LIMIT 1` -/
def selectHost (hosts : Table Host) (domain : Str) : Option (Nat × Host) :=
  hosts.select fun host => host.domain == domain

/-- `s.strip(chars)` -/
def strip (chars s : Str) : Str :=
  ((s.dropWhile (· ∈ chars)).reverse.dropWhile (· ∈ chars)).reverse

namespace DNSHostsManager

def addHost (hosts : Table Host) (put : PutResult) (ip domain : Str) : Table Host :=
  if ip.length = 0 ∨ domain.length = 0 then hosts
  else
    match selectHost hosts domain, put with
    | some (k, host), .ok _ => hosts.put k { host with ip := ip }
    | none, .ok _ => hosts.put hosts.newKey ⟨ip, domain⟩
    | _, .error _ => hosts

def delHost (hosts : Table Host) (domain : Str) : Table Host :=
  if domain.length = 0 then hosts
  else
    match selectHost hosts domain with
    | some (k, _) => hosts.delete k
    | none => hosts

def delAll (hosts : Table Host) : Table Host :=
  hosts.rows.foldl (fun hosts row => hosts.delete row.1) hosts

/-- What the loop of `_parse_hosts` appends for one line. -/
def parseLine (line : Str) : List Host :=
  match strip [' ', '\n'] line with
  | [] => []
  | c :: rest =>
      if c = '{' ∨ c = '#' ∨ c = '}' then []
      else
        match splitWords (c :: rest) with
        | ip :: dom :: doms =>
            if ip = "127.0.0.1".toList then [] else (dom :: doms).map fun dom => ⟨ip, dom⟩
        | _ => []

def parseHosts (data : Str) : List Host := (readlines data).flatMap parseLine

/-- The loop of `load_hosts`; the puts are answered in their order. -/
def addHosts (hosts : Table Host) (puts : Nat → PutResult) : List Host → Table Host
  | [] => hosts
  | host :: rest =>
      addHosts (addHost hosts (puts 0) host.ip host.domain) (fun i => puts (i + 1)) rest

def loadHosts (hosts : Table Host) (page : Except DownloadError Str) (puts : Nat → PutResult) :
    Table Host :=
  match page with
  | .error _ => hosts
  | .ok data => addHosts hosts puts (parseHosts data)

inductive Op
  | addHost (ip domain : Str) (put : PutResult)
  | delHost (domain : Str)
  | delAll
  | loadHosts (page : Except DownloadError Str) (puts : Nat → PutResult)

def Op.run (hosts : Table Host) : Op → Table Host
  | .addHost ip domain put => DNSHostsManager.addHost hosts put ip domain
  | .delHost domain => DNSHostsManager.delHost hosts domain
  | .delAll => DNSHostsManager.delAll hosts
  | .loadHosts page puts => DNSHostsManager.loadHosts hosts page puts

/-- The table after the operations, from the empty one. -/
def run (ops : List Op) : Table Host := ops.foldl Op.run Table.empty

/-! ### The map from names to addresses -/

abbrev HostsMap := Str → Option Str

/-- What an operation did: one name given an address, one name or every name taken out. -/
inductive Effect
  | added (ip domain : Str)
  | deleted (domain : Str)
  | cleared

def Effect.apply (m : HostsMap) : Effect → HostsMap
  | .added ip domain => Function.update m domain (some ip)
  | .deleted domain => Function.update m domain none
  | .cleared => fun _ => none

def mapOf (effects : List Effect) : HostsMap := effects.foldl Effect.apply fun _ => none

def Effect.Touches (domain : Str) : Effect → Prop
  | .added _ domain' => domain' = domain
  | .deleted domain' => domain' = domain
  | .cleared => True

/-- The last effect on the name gave it this address. -/
def Stands (effects : List Effect) (ip domain : Str) : Prop :=
  ∃ before after, effects = before ++ .added ip domain :: after ∧
    ∀ e ∈ after, ¬ e.Touches domain

/-- An `add_host` has an effect if it makes a put, which it does with both texts non-empty, and the
put is not refused. -/
def addEffects (put : PutResult) (ip domain : Str) : List Effect :=
  if put = .ok () ∧ ip ≠ [] ∧ domain ≠ [] then [.added ip domain] else []

def addsEffects (puts : Nat → PutResult) : List Host → List Effect
  | [] => []
  | host :: rest =>
      addEffects (puts 0) host.ip host.domain ++ addsEffects (fun i => puts (i + 1)) rest

def Op.effects : Op → List Effect
  | .addHost ip domain put => addEffects put ip domain
  | .delHost domain => [.deleted domain]
  | .delAll => [.cleared]
  | .loadHosts (.error _) _ => []
  | .loadHosts (.ok data) puts => addsEffects puts (parseHosts data)

/-- The table has one row for each name the map has, and no other row. -/
structure Represents (hosts : Table Host) (m : HostsMap) : Prop where
  unique : ∀ row ∈ hosts.rows, ∀ row' ∈ hosts.rows, row.2.domain = row'.2.domain → row = row'
  nonempty : ∀ row ∈ hosts.rows, row.2.ip ≠ [] ∧ row.2.domain ≠ []
  lookup : ∀ domain ip, m domain = some ip ↔ ∃ k, (k, ⟨ip, domain⟩) ∈ hosts.rows

variable {hosts : Table Host} {m : HostsMap} {ip domain : Str} {k : Nat} {host : Host}
  {effects : List Effect}

theorem mapOf_append (effects more : List Effect) :
    mapOf (effects ++ more) = more.foldl Effect.apply (mapOf effects) := List.foldl_append

theorem stands_append_singleton {e : Effect} :
    Stands (effects ++ [e]) ip domain ↔
      e = .added ip domain ∨ (¬ e.Touches domain ∧ Stands effects ip domain) := by
  constructor
  · rintro ⟨before, after, heq, hafter⟩
    rcases List.eq_nil_or_concat after with rfl | ⟨rest, last, rfl⟩
    · obtain ⟨_, hlast⟩ := List.append_inj' heq rfl
      exact Or.inl (List.cons.inj hlast).1
    · rw [List.concat_eq_append] at heq hafter
      rw [← List.cons_append, ← List.append_assoc] at heq
      obtain ⟨heffects, hlast⟩ := List.append_inj' heq rfl
      obtain rfl := (List.cons.inj hlast).1
      exact Or.inr ⟨hafter e (List.mem_append_right rest List.mem_cons_self), before, rest,
        heffects, fun e' he' => hafter e' (List.mem_append_left [e] he')⟩
  · rintro (rfl | ⟨he, before, after, rfl, hafter⟩)
    · exact ⟨effects, [], rfl, nofun⟩
    · refine ⟨before, after ++ [e], by simp, fun e' he' => ?_⟩
      rcases List.mem_append.mp he' with he' | he'
      · exact hafter e' he'
      · exact List.mem_singleton.mp he' ▸ he

theorem mapOf_eq_some_iff : mapOf effects domain = some ip ↔ Stands effects ip domain := by
  induction effects using List.reverseRecOn with
  | nil =>
      refine iff_of_false nofun ?_
      rintro ⟨before, after, heq, _⟩
      exact absurd heq.symm (List.append_ne_nil_of_right_ne_nil before (List.cons_ne_nil _ _))
  | append_singleton effects e ih =>
      rw [mapOf_append, stands_append_singleton, ← ih]
      change Effect.apply (mapOf effects) e domain = some ip ↔ _
      cases e with
      | added ip' domain' =>
          by_cases hname : domain' = domain
          · subst hname
            simp [Effect.apply, Effect.Touches]
          · simp [Effect.apply, Effect.Touches, hname, Function.update_of_ne (Ne.symm hname)]
      | deleted domain' =>
          by_cases hname : domain' = domain
          · subst hname
            simp [Effect.apply, Effect.Touches]
          · simp [Effect.apply, Effect.Touches, hname, Function.update_of_ne (Ne.symm hname)]
      | cleared => simp [Effect.apply, Effect.Touches]

/-! ### The table is the map -/

theorem represents_empty : Represents Table.empty fun _ => none :=
  ⟨nofun, nofun, fun _ _ => iff_of_false nofun fun ⟨_, hrow⟩ => absurd hrow List.not_mem_nil⟩

theorem mem_of_selectHost (hselect : selectHost hosts domain = some (k, host)) :
    (k, host) ∈ hosts.rows ∧ host.domain = domain := by
  obtain ⟨hrow, hdomain⟩ := Table.mem_of_select hselect
  exact ⟨hrow, beq_iff_eq.mp hdomain⟩

theorem ne_of_selectHost_eq_none (hselect : selectHost hosts domain = none) :
    ∀ row ∈ hosts.rows, row.2.domain ≠ domain := fun row hrow heq =>
  Table.select_eq_none_iff.mp hselect row hrow (beq_iff_eq.mpr heq)

/-- The row that a query found is the only one with the name. -/
theorem Represents.key_iff (hrep : Represents hosts m)
    (hselect : selectHost hosts domain = some (k, host)) :
    ∀ row ∈ hosts.rows, row.1 = k ↔ row.2.domain = domain := by
  obtain ⟨hfound, hdomain⟩ := mem_of_selectHost hselect
  rintro ⟨k', host'⟩ hrow
  constructor
  · rintro rfl
    rw [Table.eq_of_mem hrow hfound]
    exact hdomain
  · intro heq
    have hsame := hrep.unique _ hrow _ hfound (heq.trans hdomain.symm)
    exact congrArg Prod.fst hsame

theorem Represents.put (hrep : Represents hosts m) (hip : ip ≠ []) (hdomain : domain ≠ [])
    (hkey : ∀ row ∈ hosts.rows, row.1 = k ↔ row.2.domain = domain) :
    Represents (hosts.put k ⟨ip, domain⟩) (Function.update m domain (some ip)) := by
  have hmem : ∀ row, row ∈ (hosts.put k ⟨ip, domain⟩).rows ↔
      row = (k, ⟨ip, domain⟩) ∨ row ∈ hosts.rows ∧ row.2.domain ≠ domain := by
    intro row
    rw [Table.mem_put]
    exact or_congr_right (and_congr_right fun hrow => not_congr (hkey row hrow))
  refine ⟨fun row hrow row' hrow' heq => ?_, fun row hrow => ?_, fun domain' ip' => ?_⟩
  · rcases (hmem row).mp hrow with rfl | ⟨hrow, hne⟩
    · rcases (hmem row').mp hrow' with rfl | ⟨_, hne'⟩
      · rfl
      · exact absurd heq.symm hne'
    · rcases (hmem row').mp hrow' with rfl | ⟨hrow', _⟩
      · exact absurd heq hne
      · exact hrep.unique row hrow row' hrow' heq
  · rcases (hmem row).mp hrow with rfl | ⟨hrow, _⟩
    · exact ⟨hip, hdomain⟩
    · exact hrep.nonempty row hrow
  · simp only [hmem]
    by_cases hname : domain' = domain
    · subst hname
      simp [eq_comm]
    · simp [hname, hrep.lookup]

theorem Represents.delete (hrep : Represents hosts m)
    (hkey : ∀ row ∈ hosts.rows, row.1 = k ↔ row.2.domain = domain) :
    Represents (hosts.delete k) (Function.update m domain none) := by
  have hmem : ∀ row, row ∈ (hosts.delete k).rows ↔ row ∈ hosts.rows ∧ row.2.domain ≠ domain := by
    intro row
    rw [Table.mem_delete]
    exact and_congr_right fun hrow => not_congr (hkey row hrow)
  refine ⟨fun row hrow row' hrow' => ?_, fun row hrow => ?_, fun domain' ip' => ?_⟩
  · exact hrep.unique row ((hmem row).mp hrow).1 row' ((hmem row').mp hrow').1
  · exact hrep.nonempty row ((hmem row).mp hrow).1
  · simp only [hmem]
    by_cases hname : domain' = domain
    · subst hname
      simp
    · simp [hname, hrep.lookup]

theorem represents_addHost (hrep : Represents hosts m) (put : PutResult) (ip domain : Str) :
    Represents (addHost hosts put ip domain) ((addEffects put ip domain).foldl Effect.apply m) := by
  unfold addHost addEffects
  by_cases hempty : ip.length = 0 ∨ domain.length = 0
  · rw [if_pos hempty, if_neg]
    · exact hrep
    · simpa only [List.length_eq_zero_iff, not_and_or, not_not] using Or.inr hempty
  · rw [if_neg hempty]
    simp only [List.length_eq_zero_iff, not_or] at hempty
    cases put with
    | error e =>
        rw [if_neg (fun h => nomatch h.1)]
        cases selectHost hosts domain with
        | none => exact hrep
        | some row => exact hrep
    | ok u =>
        rw [if_pos ⟨rfl, hempty⟩]
        cases hselect : selectHost hosts domain with
        | none =>
            exact hrep.put hempty.1 hempty.2 fun row hrow =>
              iff_of_false (Table.ne_newKey hrow) (ne_of_selectHost_eq_none hselect row hrow)
        | some row =>
            obtain ⟨k, host⟩ := row
            obtain rfl := (mem_of_selectHost hselect).2
            exact hrep.put hempty.1 hempty.2 (hrep.key_iff hselect)

theorem represents_delHost (hrep : Represents hosts m) (domain : Str) :
    Represents (delHost hosts domain) (Function.update m domain none) := by
  have hnone : (∀ row ∈ hosts.rows, row.2.domain ≠ domain) → Function.update m domain none = m := by
    intro hne
    rw [Function.update_eq_self_iff]
    cases hm : m domain with
    | none => rfl
    | some ip =>
        obtain ⟨k, hrow⟩ := (hrep.lookup domain ip).mp hm
        exact absurd rfl (hne _ hrow)
  unfold delHost
  split
  · rename_i hlen
    obtain rfl := List.eq_nil_of_length_eq_zero hlen
    rw [hnone fun row hrow => (hrep.nonempty row hrow).2]
    exact hrep
  · cases hselect : selectHost hosts domain with
    | none =>
        rw [hnone (ne_of_selectHost_eq_none hselect)]
        exact hrep
    | some row => exact hrep.delete (hrep.key_iff hselect)

theorem mem_foldl_delete (rows : List (Nat × Host)) (hosts : Table Host) {row : Nat × Host} :
    row ∈ (rows.foldl (fun hosts row => hosts.delete row.1) hosts).rows ↔
      row ∈ hosts.rows ∧ ∀ other ∈ rows, row.1 ≠ other.1 := by
  induction rows generalizing hosts with
  | nil => simp
  | cons other rows ih =>
      rw [List.foldl_cons, ih, Table.mem_delete, List.forall_mem_cons, and_assoc]

theorem delAll_rows (hosts : Table Host) : (delAll hosts).rows = [] := by
  refine List.eq_nil_iff_forall_not_mem.mpr fun row hrow => ?_
  obtain ⟨hrow, hne⟩ := (mem_foldl_delete hosts.rows hosts).mp hrow
  exact hne row hrow rfl

theorem represents_delAll (hosts : Table Host) : Represents (delAll hosts) fun _ => none := by
  have hno : ∀ row, row ∉ (delAll hosts).rows := fun row => by simp [delAll_rows hosts]
  exact ⟨fun row hrow => absurd hrow (hno row), fun row hrow => absurd hrow (hno row),
    fun _ _ => iff_of_false nofun fun ⟨_, hrow⟩ => hno _ hrow⟩

theorem represents_addHosts (hrep : Represents hosts m) (puts : Nat → PutResult)
    (added : List Host) :
    Represents (addHosts hosts puts added) ((addsEffects puts added).foldl Effect.apply m) := by
  induction added generalizing hosts m puts with
  | nil => exact hrep
  | cons host added ih =>
      rw [addHosts, addsEffects, List.foldl_append]
      exact ih (represents_addHost hrep (puts 0) host.ip host.domain) fun i => puts (i + 1)

theorem represents_op (hrep : Represents hosts m) (op : Op) :
    Represents (op.run hosts) (op.effects.foldl Effect.apply m) := by
  cases op with
  | addHost ip domain put => exact represents_addHost hrep put ip domain
  | delHost domain => exact represents_delHost hrep domain
  | delAll => exact represents_delAll hosts
  | loadHosts page puts =>
      cases page with
      | error e => exact hrep
      | ok data => exact represents_addHosts hrep puts (parseHosts data)

theorem represents_run (ops : List Op) : Represents (run ops) (mapOf (ops.flatMap Op.effects)) := by
  induction ops using List.reverseRecOn with
  | nil => exact represents_empty
  | append_singleton ops op ih =>
      rw [List.flatMap_append, mapOf_append, List.flatMap_singleton, run, List.foldl_append]
      exact represents_op ih op

theorem Represents.doHostsLookup_eq (hrep : Represents hosts m) (domain : Str) :
    DNSHosts.doHostsLookup hosts domain = (m domain).getD cantResolve := by
  have hlookup : DNSHosts.doHostsLookup hosts domain = match selectHost hosts domain with
      | some (_, host) => if host.ip.isEmpty then cantResolve else host.ip
      | none => cantResolve := rfl
  rw [hlookup]
  cases hselect : selectHost hosts domain with
  | none =>
      cases hm : m domain with
      | none => rfl
      | some ip =>
          obtain ⟨k, hrow⟩ := (hrep.lookup domain ip).mp hm
          exact absurd rfl (ne_of_selectHost_eq_none hselect _ hrow)
  | some row =>
      obtain ⟨k, host⟩ := row
      obtain ⟨hrow, rfl⟩ := mem_of_selectHost hselect
      rw [(hrep.lookup host.domain host.ip).mpr ⟨k, hrow⟩]
      exact if_neg fun hempty => (hrep.nonempty _ hrow).1 (List.isEmpty_iff.mp hempty)

/-! ### Rows of other names -/

theorem Represents.mem_addHost_iff (hrep : Represents hosts m) (put : PutResult) (ip : Str)
    {row : Nat × Host} (hne : row.2.domain ≠ domain) :
    row ∈ (addHost hosts put ip domain).rows ↔ row ∈ hosts.rows := by
  have hput : ∀ k ip', (∀ row ∈ hosts.rows, row.1 = k ↔ row.2.domain = domain) →
      (row ∈ (hosts.put k ⟨ip', domain⟩).rows ↔ row ∈ hosts.rows) := by
    intro k ip' hkey
    rw [Table.mem_put]
    constructor
    · rintro (rfl | ⟨hrow, _⟩)
      · exact absurd rfl hne
      · exact hrow
    · exact fun hrow => Or.inr ⟨hrow, fun hk => hne ((hkey row hrow).mp hk)⟩
  unfold addHost
  split
  · rfl
  · cases hselect : selectHost hosts domain with
    | none =>
        cases put with
        | error e => rfl
        | ok u =>
            exact hput _ _ fun row hrow =>
              iff_of_false (Table.ne_newKey hrow) (ne_of_selectHost_eq_none hselect row hrow)
    | some found =>
        obtain ⟨k, host⟩ := found
        obtain ⟨_, rfl⟩ := mem_of_selectHost hselect
        cases put with
        | error e => rfl
        | ok u => exact hput _ _ (hrep.key_iff hselect)

theorem Represents.mem_delHost_iff (hrep : Represents hosts m) {row : Nat × Host}
    (hne : row.2.domain ≠ domain) : row ∈ (delHost hosts domain).rows ↔ row ∈ hosts.rows := by
  unfold delHost
  split
  · rfl
  · cases hselect : selectHost hosts domain with
    | none => rfl
    | some found =>
        change row ∈ (hosts.delete found.1).rows ↔ _
        rw [Table.mem_delete]
        exact and_iff_left_of_imp fun hrow hk => hne ((hrep.key_iff hselect row hrow).mp hk)

/-- What the hosts table is for, after the effects: one row a name, none without an address or a
name, the last address that stands is the one looked up, and an operation on one name leaves the
rows of the others. -/
structure Keeps (effects : List Effect) (hosts : Table Host) : Prop where
  unique : ∀ row ∈ hosts.rows, ∀ row' ∈ hosts.rows, row.2.domain = row'.2.domain → row = row'
  nonempty : ∀ row ∈ hosts.rows, row.2.ip ≠ [] ∧ row.2.domain ≠ []
  lookup : ∀ domain ip, Stands effects ip domain → DNSHosts.doHostsLookup hosts domain = ip
  lookup_none : ∀ domain, (∀ ip, ¬ Stands effects ip domain) →
    DNSHosts.doHostsLookup hosts domain = cantResolve
  add_other : ∀ put ip domain, ∀ row : Nat × Host, row.2.domain ≠ domain →
    (row ∈ (addHost hosts put ip domain).rows ↔ row ∈ hosts.rows)
  del_other : ∀ domain, ∀ row : Nat × Host, row.2.domain ≠ domain →
    (row ∈ (delHost hosts domain).rows ↔ row ∈ hosts.rows)

/-- After any operations, with any puts refused, the table keeps what the operations did. -/
theorem keeps_run (ops : List Op) : Keeps (ops.flatMap Op.effects) (run ops) := by
  have hrep := represents_run ops
  refine ⟨hrep.unique, hrep.nonempty, fun domain ip hstands => ?_, fun domain hnone => ?_,
    fun put ip _ _ => hrep.mem_addHost_iff put ip, fun _ _ => hrep.mem_delHost_iff⟩
  · rw [hrep.doHostsLookup_eq, mapOf_eq_some_iff.mpr hstands, Option.getD_some]
  · have hm : mapOf (ops.flatMap Op.effects) domain = none :=
      Option.eq_none_iff_forall_ne_some.mpr fun ip hm => hnone ip (mapOf_eq_some_iff.mp hm)
    rw [hrep.doHostsLookup_eq, hm, Option.getD_none]

end DNSHostsManager

end CodeSlices.DnsRelay
