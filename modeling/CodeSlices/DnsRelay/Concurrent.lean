import CodeSlices.DnsRelay.Cache
import CodeSlices.Lib.Transition

/-!
# Updates that run at the same time

`DNSCacheManager.update` queries for the row and then puts a row, and nothing keeps the two steps
together. The state is the datastore, what the query of each call under way returned, and the calls
that have completed.
-/

namespace CodeSlices.DnsRelay.Concurrent

open CodeSlices.Transition

structure Call where
  domain : Str
  ip : Str
  hit : Bool
  deriving DecidableEq

/-- A call between its query and its put. -/
structure Pending where
  call : Call
  found : Option (Nat × HostCache)
  deriving DecidableEq

structure State where
  cache : Table HostCache
  active : Nat → Option Pending
  completed : List Call

def initial : State where
  cache := Table.empty
  active := fun _ => none
  completed := []

/-- What a query for the domain may return: any of its rows, and nothing only if it has none. -/
def Answers (cache : Table HostCache) (domain : Str) : Option (Nat × HostCache) → Prop
  | none => ∀ row ∈ cache.rows, row.2.domain ≠ domain
  | some row => row ∈ cache.rows ∧ row.2.domain = domain

instance (cache : Table HostCache) (domain : Str) : DecidablePred (Answers cache domain)
  | none => inferInstanceAs (Decidable (∀ row ∈ cache.rows, row.2.domain ≠ domain))
  | some row => inferInstanceAs (Decidable (row ∈ cache.rows ∧ row.2.domain = domain))

/-- The datastore chooses the row a query returns and the key of a new row. -/
inductive Event
  | query (id : Nat) (call : Call) (found : Option (Nat × HostCache))
  | put (id : Nat) (now : DateTime) (newKey : Nat)
  deriving DecidableEq

def step (s : State) : Event → Option State
  | .query id call found =>
      if (s.active id).isNone ∧ Answers s.cache call.domain found then
        some { s with active := Function.update s.active id (some ⟨call, found⟩) }
      else none
  | .put id now newKey =>
      match s.active id with
      | none => none
      | some ⟨call, found⟩ =>
          if found.isSome ∨ newKey ∉ s.cache.keys then
            some {
              cache :=
                DNSCacheManager.putFound s.cache found newKey now call.domain call.ip call.hit
              active := Function.update s.active id none
              completed := s.completed ++ [call] }
          else none

def count (hit : Bool) (domain : Str) (calls : List Call) : Int :=
  calls.countP fun call => call.domain == domain && call.hit == hit

/-- No row is there twice and no completed call is left out of the counters. -/
structure NoneLost (s : State) : Prop where
  unique : ∀ row ∈ s.cache.rows, ∀ row' ∈ s.cache.rows, row.2.domain = row'.2.domain → row = row'
  hit : ∀ row ∈ s.cache.rows, row.2.hit = count true row.2.domain s.completed
  failed : ∀ row ∈ s.cache.rows, row.2.failed = count false row.2.domain s.completed
  present : ∀ call ∈ s.completed, ∃ row ∈ s.cache.rows, row.2.domain = call.domain

/-- A put finds the datastore as the query of its call left it: that query could return the same. -/
def Current (s : State) : Event → Prop
  | .query _ _ _ => True
  | .put id _ _ => ∀ p, s.active id = some p → Answers s.cache p.call.domain p.found

instance (s : State) : DecidablePred (Current s)
  | .query _ _ _ => isTrue trivial
  | .put id _ _ =>
      match hactive : s.active id with
      | none => isTrue fun p hp => by rw [hactive] at hp; cases hp
      | some p =>
          decidable_of_iff (Answers s.cache p.call.domain p.found) (by simp [Current, hactive])

theorem step_query {s t : State} {id : Nat} {call : Call} {found : Option (Nat × HostCache)}
    (hstep : step s (.query id call found) = some t) :
    Answers s.cache call.domain found ∧
      t = { s with active := Function.update s.active id (some ⟨call, found⟩) } := by
  rw [step] at hstep
  split at hstep
  · rename_i henabled
    exact ⟨henabled.2, (Option.some.inj hstep).symm⟩
  · cases hstep

theorem step_put {s t : State} {id newKey : Nat} {now : DateTime}
    (hstep : step s (.put id now newKey) = some t) :
    ∃ call found, s.active id = some ⟨call, found⟩ ∧
      (found.isSome ∨ newKey ∉ s.cache.keys) ∧ t = {
        cache :=
          DNSCacheManager.putFound s.cache found newKey now call.domain call.ip call.hit
        active := Function.update s.active id none
        completed := s.completed ++ [call] } := by
  rw [step] at hstep
  split at hstep
  · cases hstep
  · rename_i call found hactive
    split at hstep
    · rename_i hkey
      exact ⟨call, found, hactive, hkey, (Option.some.inj hstep).symm⟩
    · cases hstep

/-! ### The counters -/

def counter (hit : Bool) (host : HostCache) : Int := if hit then host.hit else host.failed

theorem counter_touch (b : Bool) (host : HostCache) (now : DateTime) (ip : Str) (hit : Bool) :
    counter b (host.touch now ip hit) = counter b host + if hit = b then 1 else 0 := by
  cases b <;> cases hit <;> simp [counter, HostCache.touch]

theorem counter_new (b : Bool) (now : DateTime) (domain ip : Str) (hit : Bool) :
    counter b (HostCache.new now domain ip hit) = if hit = b then 1 else 0 := by
  cases b <;> cases hit <;> rfl

theorem count_nonneg (b : Bool) (domain : Str) (calls : List Call) : 0 ≤ count b domain calls :=
  Int.natCast_nonneg _

theorem count_append_self (b : Bool) (calls : List Call) (call : Call) :
    count b call.domain (calls ++ [call]) =
      count b call.domain calls + if call.hit = b then 1 else 0 := by
  rw [count, List.countP_append, List.countP_singleton]
  by_cases hb : call.hit = b <;> simp [count, hb]

theorem count_append_of_ne (b : Bool) (calls : List Call) {call : Call} {domain : Str}
    (hne : call.domain ≠ domain) : count b domain (calls ++ [call]) = count b domain calls := by
  rw [count, List.countP_append, List.countP_singleton]
  simp [count, hne]

theorem count_le_append (b : Bool) (domain : Str) (calls : List Call) (call : Call) :
    count b domain calls ≤ count b domain (calls ++ [call]) := by
  rw [count, count, List.countP_append]
  omega

/-! ### What holds of the calls under way -/

/-- A row that a query for the domain returned: its key stays in use, its counters only fall behind,
and as long as they have not it is the row that is still there. -/
structure Snapshot (cache : Table HostCache) (completed : List Call) (domain : Str)
    (row : Nat × HostCache) : Prop where
  domain_eq : row.2.domain = domain
  kept : ∃ host, (row.1, host) ∈ cache.rows ∧ host.domain = domain
  counter_le : ∀ b, counter b row.2 ≤ count b domain completed
  current : (∀ b, counter b row.2 = count b domain completed) → row ∈ cache.rows

structure Inv (s : State) : Prop where
  present : ∀ call ∈ s.completed, ∃ row ∈ s.cache.rows, row.2.domain = call.domain
  counter_le : ∀ row ∈ s.cache.rows, ∀ b, counter b row.2 ≤ count b row.2.domain s.completed
  found : ∀ id p row, s.active id = some p → p.found = some row →
    Snapshot s.cache s.completed p.call.domain row

theorem inv_initial : Inv initial where
  present := nofun
  counter_le := nofun
  found := nofun

variable {s t : State} {e : Event} {cache : Table HostCache} {completed : List Call} {call : Call}
  {k : Nat} {host : HostCache}

/-- The row `(k, host)` may be put for the call: it takes no row of another domain, and counts no
more than what has completed with the call. -/
structure Written (cache : Table HostCache) (completed : List Call) (call : Call) (k : Nat)
    (host : HostCache) : Prop where
  domain_eq : host.domain = call.domain
  key : ∀ row ∈ cache.rows, row.1 = k → row.2.domain = call.domain
  counter_le : ∀ b, counter b host ≤ count b call.domain (completed ++ [call])

theorem written_of_put (hs : Inv s) {id newKey : Nat} {found : Option (Nat × HostCache)}
    (hactive : s.active id = some ⟨call, found⟩) (hkey : found.isSome ∨ newKey ∉ s.cache.keys)
    (now : DateTime) :
    ∃ k host, DNSCacheManager.putFound s.cache found newKey now call.domain call.ip call.hit =
      s.cache.put k host ∧ Written s.cache s.completed call k host := by
  cases found with
  | some row =>
      have hrow := hs.found id _ row hactive rfl
      obtain ⟨host, hmem, hdomain⟩ := hrow.kept
      refine ⟨row.1, row.2.touch now call.ip call.hit, rfl, ?_, ?_, fun b => ?_⟩
      · rw [touch_domain, hrow.domain_eq]
      · rintro ⟨k, other⟩ hother rfl
        rw [Table.eq_of_mem hother hmem, hdomain]
      · have hle : counter b row.2 ≤ count b call.domain s.completed := hrow.counter_le b
        rw [counter_touch, count_append_self]
        omega
  | none =>
      have hnew := hkey.resolve_left (by simp)
      refine ⟨newKey, HostCache.new now call.domain call.ip call.hit, rfl, rfl, ?_, fun b => ?_⟩
      · rintro row hrow rfl
        exact absurd (List.mem_map_of_mem hrow) hnew
      · have hle := count_nonneg b call.domain s.completed
        rw [counter_new, count_append_self]
        omega

theorem snapshot_put (hwritten : Written cache completed call k host) {domain : Str}
    {row : Nat × HostCache} (hrow : Snapshot cache completed domain row) :
    Snapshot (cache.put k host) (completed ++ [call]) domain row := by
  refine ⟨hrow.domain_eq, ?_, fun b => ?_, fun hcurrent => ?_⟩
  · obtain ⟨other, hmem, hdomain⟩ := hrow.kept
    by_cases hk : row.1 = k
    · refine ⟨host, Table.mem_put.mpr (Or.inl (by rw [hk])), ?_⟩
      rw [hwritten.domain_eq, ← hwritten.key _ hmem hk, hdomain]
    · exact ⟨other, Table.mem_put.mpr (Or.inr ⟨hmem, hk⟩), hdomain⟩
  · exact Int.le_trans (hrow.counter_le b) (count_le_append b domain completed call)
  · by_cases hdomain : call.domain = domain
    · have hle := hrow.counter_le call.hit
      have heq := hcurrent call.hit
      rw [← hdomain, count_append_self, if_pos rfl] at heq
      rw [← hdomain] at hle
      omega
    · have hmem := hrow.current fun b =>
        (hcurrent b).trans (count_append_of_ne b completed hdomain)
      refine Table.mem_put.mpr (Or.inr ⟨hmem, fun hk => hdomain ?_⟩)
      rw [← hwritten.key row hmem hk, hrow.domain_eq]

theorem inv_put (hs : Inv s) (hwritten : Written s.cache s.completed call k host) (id : Nat) :
    Inv {
      cache := s.cache.put k host
      active := Function.update s.active id none
      completed := s.completed ++ [call] } := by
  have hself : (k, host) ∈ (s.cache.put k host).rows := Table.mem_put.mpr (Or.inl rfl)
  refine ⟨fun done hdone => ?_, fun row hrow b => ?_, fun id' p row hactive hfound => ?_⟩
  · rcases List.mem_append.mp hdone with hdone | hdone
    · obtain ⟨row, hrow, hdomain⟩ := hs.present done hdone
      by_cases hk : row.1 = k
      · exact ⟨(k, host), hself, by rw [hwritten.domain_eq, ← hwritten.key row hrow hk, hdomain]⟩
      · exact ⟨row, Table.mem_put.mpr (Or.inr ⟨hrow, hk⟩), hdomain⟩
    · rw [List.mem_singleton.mp hdone]
      exact ⟨(k, host), hself, hwritten.domain_eq⟩
  · rcases Table.mem_put.mp hrow with rfl | ⟨hrow, _⟩
    · have hle := hwritten.counter_le b
      rwa [← hwritten.domain_eq] at hle
    · exact Int.le_trans (hs.counter_le row hrow b) (count_le_append b _ _ call)
  · have hne : id' ≠ id := by
      rintro rfl
      change Function.update s.active id' none id' = some p at hactive
      rw [Function.update_self] at hactive
      cases hactive
    have hactive' : s.active id' = some p :=
      (Function.update_of_ne hne none s.active).symm.trans hactive
    exact snapshot_put hwritten (hs.found id' p row hactive' hfound)

theorem inv_query (hs : Inv s) {id : Nat} {found : Option (Nat × HostCache)}
    (hanswers : Answers s.cache call.domain found) :
    Inv { s with active := Function.update s.active id (some ⟨call, found⟩) } := by
  refine ⟨hs.present, hs.counter_le, fun id' p row hactive hfound => ?_⟩
  change Function.update s.active id (some ⟨call, found⟩) id' = some p at hactive
  by_cases hid : id' = id
  · rw [hid, Function.update_self] at hactive
    obtain rfl := Option.some.inj hactive
    obtain rfl : found = some row := hfound
    obtain ⟨hmem, hdomain⟩ := hanswers
    have hle := hs.counter_le row hmem
    rw [hdomain] at hle
    exact ⟨hdomain, ⟨row.2, hmem, hdomain⟩, hle, fun _ => hmem⟩
  · rw [Function.update_of_ne hid] at hactive
    exact hs.found id' p row hactive hfound

theorem inv_step (hs : Inv s) (hstep : step s e = some t) : Inv t := by
  cases e with
  | query id call found =>
      obtain ⟨hanswers, rfl⟩ := step_query hstep
      exact inv_query hs hanswers
  | put id now newKey =>
      obtain ⟨call, found, hactive, hkey, rfl⟩ := step_put hstep
      obtain ⟨k, host, hput, hwritten⟩ := written_of_put hs hactive hkey now
      rw [hput]
      exact inv_put hs hwritten id

/-! ### When no update is lost -/

/-- One row a domain, and its counters are the numbers of completed calls. -/
def Exact (cache : Table HostCache) (completed : List Call) : Prop :=
  (∀ row ∈ cache.rows, ∀ row' ∈ cache.rows, row.2.domain = row'.2.domain → row = row') ∧
    ∀ row ∈ cache.rows, ∀ b, counter b row.2 = count b row.2.domain completed

theorem noneLost_iff_exact (hs : Inv s) : NoneLost s ↔ Exact s.cache s.completed := by
  constructor
  · rintro ⟨hunique, hhit, hfailed, _⟩
    refine ⟨hunique, fun row hrow b => ?_⟩
    cases b with
    | true => exact hhit row hrow
    | false => exact hfailed row hrow
  · rintro ⟨hunique, hcounter⟩
    exact ⟨hunique, fun row hrow => hcounter row hrow true, fun row hrow => hcounter row hrow false,
      hs.present⟩

/-- When the put row counts right, no other row may be of its domain. -/
theorem exact_put (hdomain : host.domain = call.domain)
    (hcounter : ∀ b, counter b host = count b call.domain (completed ++ [call]))
    (hother : ∀ row ∈ cache.rows, row.1 ≠ k → row.2.domain ≠ call.domain)
    (hexact : Exact cache completed) : Exact (cache.put k host) (completed ++ [call]) := by
  obtain ⟨hunique, hcounts⟩ := hexact
  refine ⟨fun row hrow row' hrow' heq => ?_, fun row hrow b => ?_⟩
  · rcases Table.mem_put.mp hrow with rfl | ⟨hrow, hk⟩
    · rcases Table.mem_put.mp hrow' with rfl | ⟨hrow', hk'⟩
      · rfl
      · exact absurd (heq.symm.trans hdomain) (hother row' hrow' hk')
    · rcases Table.mem_put.mp hrow' with rfl | ⟨hrow', _⟩
      · exact absurd (heq.trans hdomain) (hother row hrow hk)
      · exact hunique row hrow row' hrow' heq
  · rcases Table.mem_put.mp hrow with rfl | ⟨hrow, hk⟩
    · rw [hcounter, hdomain]
    · rw [hcounts row hrow b, count_append_of_ne b completed (hother row hrow hk).symm]

theorem of_exact_put (hdomain : host.domain = call.domain)
    (hexact : Exact (cache.put k host) (completed ++ [call])) :
    (∀ b, counter b host = count b call.domain completed + if call.hit = b then 1 else 0) ∧
      ∀ row ∈ cache.rows, row.1 ≠ k → row.2.domain ≠ call.domain ∧
        ∀ b, counter b row.2 = count b row.2.domain completed := by
  obtain ⟨hunique, hcounts⟩ := hexact
  have hself : (k, host) ∈ (cache.put k host).rows := Table.mem_put.mpr (Or.inl rfl)
  refine ⟨fun b => ?_, fun row hrow hk => ?_⟩
  · rw [← count_append_self, ← hdomain]
    exact hcounts _ hself b
  · have hkeep : row ∈ (cache.put k host).rows := Table.mem_put.mpr (Or.inr ⟨hrow, hk⟩)
    have hother : row.2.domain ≠ call.domain := by
      intro heq
      have hsame := hunique row hkeep (k, host) hself (heq.trans hdomain.symm)
      exact hk (by rw [hsame])
    refine ⟨hother, fun b => ?_⟩
    rw [hcounts row hkeep b, count_append_of_ne b completed hother.symm]

theorem exact_put_found {row : Nat × HostCache} (hrow : Snapshot cache completed call.domain row)
    (hdomain : host.domain = call.domain)
    (hcounter : ∀ b, counter b host = counter b row.2 + if call.hit = b then 1 else 0) :
    Exact (cache.put row.1 host) (completed ++ [call]) ↔
      Exact cache completed ∧ row ∈ cache.rows := by
  constructor
  · intro hexact
    obtain ⟨hhost, hothers⟩ := of_exact_put hdomain hexact
    have hlast : ∀ b, counter b row.2 = count b call.domain completed := by
      intro b
      have hb := hhost b
      rw [hcounter] at hb
      omega
    have hmem := hrow.current hlast
    have hsame : ∀ r ∈ cache.rows, r.2.domain = call.domain → r = row := by
      rintro ⟨k, other⟩ hr heq
      by_cases hk : k = row.1
      · subst hk
        rw [Table.eq_of_mem hr hmem]
      · exact absurd heq (hothers _ hr hk).1
    refine ⟨⟨fun r hr r' hr' heq => ?_, fun r hr b => ?_⟩, hmem⟩
    · by_cases hr₁ : r.2.domain = call.domain
      · rw [hsame r hr hr₁, hsame r' hr' (heq.symm.trans hr₁)]
      · have hkeep : ∀ r ∈ cache.rows, r.2.domain ≠ call.domain →
            r ∈ (cache.put row.1 host).rows := by
          intro r hr hne
          refine Table.mem_put.mpr (Or.inr ⟨hr, fun hk => hne ?_⟩)
          have hkeyed : (row.1, r.2) ∈ cache.rows := hk ▸ hr
          rw [Table.eq_of_mem hkeyed hmem, hrow.domain_eq]
        exact hexact.1 r (hkeep r hr hr₁) r' (hkeep r' hr' (heq ▸ hr₁)) heq
    · by_cases hk : r.1 = row.1
      · have hkeyed : (row.1, r.2) ∈ cache.rows := hk ▸ hr
        rw [Table.eq_of_mem hkeyed hmem, hlast b, hrow.domain_eq]
      · exact (hothers r hr hk).2 b
  · rintro ⟨hexact, hmem⟩
    refine exact_put hdomain (fun b => ?_) (fun r hr hk heq => hk ?_) hexact
    · rw [hcounter, count_append_self, hexact.2 row hmem b, hrow.domain_eq]
    · rw [hexact.1 r hr row hmem (heq.trans hrow.domain_eq.symm)]

theorem exact_put_new (hkey : k ∉ cache.keys) (hdomain : host.domain = call.domain)
    (hcounter : ∀ b, counter b host = if call.hit = b then 1 else 0)
    (hpresent : ∀ done ∈ completed, ∃ row ∈ cache.rows, row.2.domain = done.domain) :
    Exact (cache.put k host) (completed ++ [call]) ↔
      Exact cache completed ∧ ∀ row ∈ cache.rows, row.2.domain ≠ call.domain := by
  have hne : ∀ row ∈ cache.rows, row.1 ≠ k := by
    rintro row hrow rfl
    exact hkey (List.mem_map_of_mem hrow)
  constructor
  · intro hexact
    obtain ⟨_, hothers⟩ := of_exact_put hdomain hexact
    have hkeep : ∀ row ∈ cache.rows, row ∈ (cache.put k host).rows :=
      fun row hrow => Table.mem_put.mpr (Or.inr ⟨hrow, hne row hrow⟩)
    refine ⟨⟨fun row hrow row' hrow' => ?_, fun row hrow => ?_⟩, fun row hrow => ?_⟩
    · exact hexact.1 row (hkeep row hrow) row' (hkeep row' hrow')
    · exact (hothers row hrow (hne row hrow)).2
    · exact (hothers row hrow (hne row hrow)).1
  · rintro ⟨hexact, hother⟩
    refine exact_put hdomain (fun b => ?_) (fun row hrow _ => hother row hrow) hexact
    have hzero : count b call.domain completed = 0 := by
      rw [count, Int.natCast_eq_zero, List.countP_eq_zero]
      intro done hdone
      obtain ⟨row, hrow, heq⟩ := hpresent done hdone
      have hdone' : done.domain ≠ call.domain := heq ▸ hother row hrow
      simp [hdone']
    rw [hcounter, count_append_self, hzero]
    omega

theorem noneLost_step (hs : Inv s) (hstep : step s e = some t) :
    NoneLost t ↔ NoneLost s ∧ Current s e := by
  rw [noneLost_iff_exact hs, noneLost_iff_exact (inv_step hs hstep)]
  cases e with
  | query id call found =>
      obtain ⟨-, rfl⟩ := step_query hstep
      exact (and_iff_left trivial).symm
  | put id now newKey =>
      obtain ⟨call, found, hactive, hkey, rfl⟩ := step_put hstep
      have hcurrent : Current s (.put id now newKey) ↔ Answers s.cache call.domain found := by
        simp [Current, hactive]
      rw [hcurrent]
      cases found with
      | some row =>
          have hrow : Snapshot s.cache s.completed call.domain row :=
            hs.found id _ row hactive rfl
          have hanswers : Answers s.cache call.domain (some row) ↔ row ∈ s.cache.rows :=
            and_iff_left hrow.domain_eq
          rw [hanswers]
          exact exact_put_found hrow (by rw [touch_domain, hrow.domain_eq])
            fun b => counter_touch b row.2 now call.ip call.hit
      | none =>
          exact exact_put_new (hkey.resolve_left (by simp)) rfl
            (fun b => counter_new b now call.domain call.ip call.hit) hs.present

/-- In every run no update is lost and no row is there twice exactly when every put found the
datastore as its query left it. -/
theorem noneLost_iff_current {es : List Event} (hrun : exec step initial es = some s) :
    NoneLost s ↔ Guarded step Current initial es := by
  have hinit : NoneLost initial := ⟨nofun, nofun, nofun, nofun⟩
  have hgood := good_iff_guarded (fun _ _ _ => inv_step) (fun _ _ _ => noneLost_step) inv_initial
    hrun
  exact hgood.trans (and_iff_right hinit)

/-- A call that nothing interrupts is `DNSCacheManager.update`. -/
theorem exec_query_put (s : State) {id : Nat} (hidle : s.active id = none) (call : Call)
    (now : DateTime) :
    exec step s [.query id call (selectCache s.cache call.domain), .put id now s.cache.newKey] =
      some { s with
        cache := DNSCacheManager.update s.cache now call.domain call.ip call.hit
        completed := s.completed ++ [call] } := by
  have hanswers : Answers s.cache call.domain (selectCache s.cache call.domain) := by
    cases hselect : selectCache s.cache call.domain with
    | none =>
        intro row hrow hdomain
        exact Table.select_eq_none_iff.mp hselect row hrow (hasDomain_iff.mpr hdomain)
    | some row => exact ⟨(Table.mem_of_select hselect).1, domain_of_selectCache hselect⟩
  have hquery : step s (.query id call (selectCache s.cache call.domain)) = some { s with
      active := Function.update s.active id (some ⟨call, selectCache s.cache call.domain⟩) } :=
    if_pos ⟨by rw [hidle]; rfl, hanswers⟩
  rw [exec_cons, hquery, Option.bind_some, exec_cons, step]
  simp only [Function.update_self, Function.update_idem, Table.newKey_notMem, not_false_eq_true,
    or_true, if_true, Option.bind_some, exec_nil]
  have hactive : Function.update s.active id none = s.active := by
    rw [Function.update_eq_self_iff, hidle]
  rw [hactive]
  rfl

def failedCall : Call := ⟨['g', '.', 'c', 'n'], cantResolve, false⟩

/-- Both calls query before either puts. -/
def overlapping : List Event :=
  [.query 0 failedCall none, .query 1 failedCall none, .put 0 10 1, .put 1 20 2]

theorem overlapping_loses :
    ∃ s, exec step initial overlapping = some s ∧ s.active 0 = none ∧ s.active 1 = none ∧
      s.cache.rows = [(1, HostCache.new 10 ['g', '.', 'c', 'n'] cantResolve false),
        (2, HostCache.new 20 ['g', '.', 'c', 'n'] cantResolve false)] ∧ ¬ NoneLost s := by
  have hrun : ((exec step initial overlapping).map fun s =>
      (s.active 0, s.active 1, s.cache.rows)) = some (none, none,
        [(1, HostCache.new 10 ['g', '.', 'c', 'n'] cantResolve false),
          (2, HostCache.new 20 ['g', '.', 'c', 'n'] cantResolve false)]) := by decide
  obtain ⟨s, hs, hfinal⟩ := Option.map_eq_some_iff.mp hrun
  obtain ⟨hzero, hfinal⟩ := Prod.mk.inj hfinal
  obtain ⟨hone, hrows⟩ := Prod.mk.inj hfinal
  refine ⟨s, hs, hzero, hone, hrows, fun h => ?_⟩
  have hunique := h.unique
  rw [hrows] at hunique
  have hsame := hunique _ List.mem_cons_self _ (List.mem_cons_of_mem _ List.mem_cons_self) rfl
  exact absurd (congrArg Prod.fst hsame) (by decide)

/-- The second call queries after the first has put. -/
def consecutive : List Event :=
  [.query 0 failedCall none, .put 0 10 1,
    .query 1 failedCall (some (1, HostCache.new 10 ['g', '.', 'c', 'n'] cantResolve false)),
    .put 1 20 2]

theorem consecutive_noneLost :
    ∃ s, exec step initial consecutive = some s ∧ s.completed = [failedCall, failedCall] ∧
      NoneLost s := by
  have hrun : ((exec step initial consecutive).map fun s => s.completed) =
      some [failedCall, failedCall] := by decide
  obtain ⟨s, hs, hcompleted⟩ := Option.map_eq_some_iff.mp hrun
  exact ⟨s, hs, hcompleted, (noneLost_iff_current hs).mpr (by decide)⟩

end CodeSlices.DnsRelay.Concurrent
