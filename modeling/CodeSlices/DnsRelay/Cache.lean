import Mathlib.Tactic.Ring
import CodeSlices.DnsRelay.Dns
import CodeSlices.Lib.Table

/-!
# The cache

`DNSCacheManager` of `tools/dnsrelay/dnscache.py` over the `HostCache` rows of the datastore. Times
are microseconds, and each call reads the clock once.
-/

namespace CodeSlices.DnsRelay

abbrev DateTime := Int

/-- A `timedelta` in its normal form. -/
structure TimeDelta where
  days : Int
  seconds : Int
  microseconds : Int
  deriving DecidableEq

def DateTime.sub (a b : DateTime) : TimeDelta where
  days := (a - b) / 86400000000
  seconds := (a - b) / 1000000 % 86400
  microseconds := (a - b) % 1000000

structure HostCache extends Host where
  hit : Int
  failed : Int
  createDate : DateTime
  updateDate : DateTime
  deriving DecidableEq

structure DNSCacheManager where
  cacheLifeLimit : Int

/-- `WHERE domain = :1` -/
def hasDomain (domain : Str) (host : HostCache) : Bool := host.domain == domain

/-- `SELECT * FROM HostCache WHERE domain = :1 LIMIT 1` -/
def selectCache (cache : Table HostCache) (domain : Str) : Option (Nat × HostCache) :=
  cache.select (hasDomain domain)

/-- The whole seconds since the row was updated, those of whole days with them. -/
def HostCache.age (host : HostCache) (now : DateTime) : Int := (now - host.updateDate) / 1000000

/-- The row `update` puts back for a row its query found. -/
def HostCache.touch (host : HostCache) (now : DateTime) (ip : Str) (hit : Bool) : HostCache :=
  if hit then { host with hit := host.hit + 1, ip := ip, updateDate := now }
  else { host with failed := host.failed + 1, updateDate := now }

/-- The row `update` puts when its query found none. -/
def HostCache.new (now : DateTime) (domain ip : Str) (hit : Bool) : HostCache where
  ip := ip
  domain := domain
  hit := if hit then 1 else 0
  failed := if hit then 0 else 1
  createDate := now
  updateDate := now

namespace DNSCacheManager

/-- What `update` does after its query; a new row gets the key `newKey`. -/
def putFound (cache : Table HostCache) (found : Option (Nat × HostCache)) (newKey : Nat)
    (now : DateTime) (domain ip : Str) (hit : Bool) : Table HostCache :=
  match found with
  | some (k, host) => cache.put k (host.touch now ip hit)
  | none => cache.put newKey (HostCache.new now domain ip hit)

def update (cache : Table HostCache) (now : DateTime) (domain ip : Str) (hit : Bool) :
    Table HostCache :=
  putFound cache (selectCache cache domain) cache.newKey now domain ip hit

def get (cache : Table HostCache) (domain : Str) : Option HostCache :=
  (selectCache cache domain).map Prod.snd

def lookup (cm : DNSCacheManager) (cache : Table HostCache) (now : DateTime) (domain : Str) : Str :=
  match get cache domain with
  | none => cantResolve
  | some host =>
      if host.ip = cantResolve then cantResolve
      else if (now.sub host.updateDate).seconds < cm.cacheLifeLimit then host.ip
      else cantResolve

end DNSCacheManager

variable {cache : Table HostCache} {domain ip : Str} {host : HostCache} {now : DateTime}
  {hit : Bool}

@[simp]
theorem touch_domain : (host.touch now ip hit).domain = host.domain := by
  cases hit <;> rfl

theorem touch_ip : (host.touch now ip hit).ip = if hit then ip else host.ip := by
  cases hit <;> rfl

@[simp]
theorem touch_updateDate : (host.touch now ip hit).updateDate = now := by
  cases hit <;> rfl

theorem hasDomain_iff : hasDomain domain host ↔ host.domain = domain := beq_iff_eq

theorem domain_of_selectCache {k : Nat} (hselect : selectCache cache domain = some (k, host)) :
    host.domain = domain :=
  hasDomain_iff.mp (Table.mem_of_select hselect).2

namespace DNSCacheManager

theorem get_update (cache : Table HostCache) (now : DateTime) (domain ip : Str) (hit : Bool) :
    get (update cache now domain ip hit) domain = some (match get cache domain with
      | some host => host.touch now ip hit
      | none => HostCache.new now domain ip hit) := by
  cases hselect : selectCache cache domain with
  | some row =>
      obtain ⟨k, host⟩ := row
      have hdomain : hasDomain domain (host.touch now ip hit) := by
        rw [hasDomain_iff, touch_domain, domain_of_selectCache hselect]
      have hput : selectCache (cache.put k (host.touch now ip hit)) domain = some (k, _) :=
        Table.select_put_of_select hselect hdomain
      simp only [get, update, putFound, hselect, hput, Option.map_some]
  | none =>
      have hdomain : hasDomain domain (HostCache.new now domain ip hit) := hasDomain_iff.mpr rfl
      have hput : selectCache (cache.put cache.newKey (HostCache.new now domain ip hit)) domain =
          some (cache.newKey, _) := Table.select_put_of_none hselect Table.newKey_notMem hdomain
      simp only [get, update, putFound, hselect, hput, Option.map_some, Option.map_none]

theorem get_update_of_ne {other : Str} (hne : domain ≠ other) (cache : Table HostCache)
    (now : DateTime) (ip : Str) (hit : Bool) :
    get (update cache now domain ip hit) other = get cache other := by
  have hno : ∀ host : HostCache, host.domain = domain → ¬ hasDomain other host := fun host heq h =>
    hne (heq ▸ hasDomain_iff.mp h)
  cases hselect : selectCache cache domain with
  | some row =>
      obtain ⟨k, host⟩ := row
      have hdomain := domain_of_selectCache hselect
      have hput : selectCache (cache.put k (host.touch now ip hit)) other =
          selectCache cache other := by
        refine Table.select_put_of_not (hno _ (touch_domain.trans hdomain)) ?_
        rintro ⟨k', other'⟩ hrow rfl
        rw [Table.eq_of_mem hrow (Table.mem_of_select hselect).1]
        exact hno host hdomain
      simp only [get, update, putFound, hselect, hput]
  | none =>
      have hput : selectCache (cache.put cache.newKey (HostCache.new now domain ip hit)) other =
          selectCache cache other := by
        exact Table.select_put_of_not (hno _ rfl) fun row hrow hk =>
          absurd hk (Table.ne_newKey hrow)
      simp only [get, update, putFound, hselect, hput]

theorem lookup_eq_cantResolve_iff (cm : DNSCacheManager) :
    cm.lookup cache now domain = cantResolve ↔ ∀ host, get cache domain = some host →
      host.ip = cantResolve ∨ cm.cacheLifeLimit ≤ (now.sub host.updateDate).seconds := by
  rw [lookup]
  cases hget : get cache domain with
  | none => exact iff_of_true rfl nofun
  | some host =>
      simp only [Option.some.injEq, forall_eq']
      split_ifs with hip hfresh
      · exact iff_of_true rfl (Or.inl hip)
      · exact ⟨Or.inl, fun h => h.resolve_right (Int.not_le.mpr hfresh)⟩
      · exact iff_of_true rfl (Or.inr (Int.not_lt.mp hfresh))

/-- A failed update never turns the answer `-` into an address exactly when the cache holds no
address for the domain, or answers with it anyway, or is asked when the update is as old as the
limit. -/
theorem failedUpdate_harmless_iff (cm : DNSCacheManager) (cache : Table HostCache) (domain : Str)
    (now later : DateTime) :
    (cm.lookup cache later domain = cantResolve →
      cm.lookup (update cache now domain cantResolve false) later domain = cantResolve) ↔
    ∀ host, get cache domain = some host →
      host.ip = cantResolve ∨ (later.sub host.updateDate).seconds < cm.cacheLifeLimit ∨
        cm.cacheLifeLimit ≤ (later.sub now).seconds := by
  rw [lookup_eq_cantResolve_iff, lookup_eq_cantResolve_iff, get_update]
  cases hget : get cache domain with
  | none => simp [HostCache.new]
  | some host =>
      simp only [Option.some.injEq, forall_eq', touch_ip, touch_updateDate, Bool.false_eq_true,
        if_false]
      constructor
      · intro h
        by_cases hexpired : cm.cacheLifeLimit ≤ (later.sub host.updateDate).seconds
        · exact (h (Or.inr hexpired)).imp_right Or.inr
        · exact Or.inr (Or.inl (Int.not_le.mp hexpired))
      · rintro (hip | hfresh | hold) h
        · exact Or.inl hip
        · exact Or.inl (h.resolve_right (Int.not_le.mpr hfresh))
        · exact Or.inr hold

def oldAddress : Table HostCache where
  rows := [(1, {
    ip := ['1', '.', '2', '.', '3', '.', '4']
    domain := ['g', '.', 'c', 'n']
    hit := 1
    failed := 0
    createDate := 0
    updateDate := 0 })]
  nodup := by decide

/-- Under a limit of six hours a resolution that fails after seven hours brings the address back for
the lookup after eight. -/
theorem oldAddress_revived :
    (DNSCacheManager.mk 21600).lookup oldAddress 28800000000 ['g', '.', 'c', 'n'] = cantResolve ∧
    (DNSCacheManager.mk 21600).lookup
      (update oldAddress 25200000000 ['g', '.', 'c', 'n'] cantResolve false) 28800000000
      ['g', '.', 'c', 'n'] = ['1', '.', '2', '.', '3', '.', '4'] := by
  decide

/-! ### How long an entry stays valid -/

theorem lookup_of_get (cm : DNSCacheManager) (hget : get cache domain = some host)
    (hip : host.ip ≠ cantResolve) :
    cm.lookup cache now domain =
      if host.age now % 86400 < cm.cacheLifeLimit then host.ip else cantResolve := by
  rw [lookup, hget]
  exact if_neg hip

theorem lookup_eq_iff_of_get (cm : DNSCacheManager) (hget : get cache domain = some host)
    (hip : host.ip ≠ cantResolve) (hnow : host.updateDate ≤ now) :
    cm.lookup cache now domain =
        (if host.age now < cm.cacheLifeLimit then host.ip else cantResolve) ↔
      host.age now < cm.cacheLifeLimit ∨ cm.cacheLifeLimit ≤ host.age now % 86400 := by
  have hage : 0 ≤ host.age now := Int.ediv_nonneg (Int.sub_nonneg.mpr hnow) (by decide)
  rw [lookup_of_get cm hget hip]
  by_cases hfresh : host.age now < cm.cacheLifeLimit
  · rw [if_pos hfresh, if_pos (by omega)]
    exact iff_of_true rfl (Or.inl hfresh)
  · rw [if_neg hfresh]
    by_cases hpart : host.age now % 86400 < cm.cacheLifeLimit
    · rw [if_pos hpart]
      exact iff_of_false hip (by omega)
    · rw [if_neg hpart]
      exact iff_of_true rfl (Or.inr (Int.not_lt.mp hpart))

theorem age_updateDate_add (host : HostCache) (seconds : Int) :
    host.age (host.updateDate + 1000000 * seconds) = seconds := by
  have hsub : host.updateDate + 1000000 * seconds - host.updateDate = 1000000 * seconds := by ring
  rw [HostCache.age, hsub, Int.mul_ediv_cancel_left seconds (by decide)]

theorem never_revived_iff (cm : DNSCacheManager) (hget : get cache domain = some host)
    (hip : host.ip ≠ cantResolve) :
    (∀ now later, host.updateDate ≤ now → now ≤ later →
        cm.lookup cache now domain = cantResolve → cm.lookup cache later domain = cantResolve) ↔
      cm.cacheLifeLimit ≤ 0 ∨ 86400 ≤ cm.cacheLifeLimit := by
  have hlookup : ∀ now, cm.lookup cache now domain = cantResolve ↔
      cm.cacheLifeLimit ≤ host.age now % 86400 := by
    intro now
    rw [lookup_of_get cm hget hip]
    split_ifs with hfresh
    · exact iff_of_false hip (by omega)
    · exact iff_of_true rfl (Int.not_lt.mp hfresh)
  constructor
  · intro hrevived
    by_contra! hlimit
    have hexpired := hrevived (host.updateDate + 1000000 * cm.cacheLifeLimit)
      (host.updateDate + 1000000 * 86400) (Int.le_add_of_nonneg_right (by omega))
      (Int.add_le_add_left (by omega) _)
    simp only [hlookup, age_updateDate_add] at hexpired
    omega
  · intro hlimit now later _ _ hexpired
    rw [hlookup] at hexpired ⊢
    omega

/-- The answer is the one the age in whole seconds asks for exactly when that age is below the limit
or what it has beyond whole days is not, and an expired entry stays expired exactly when the limit
is not positive or a day and more. -/
theorem lookup_expires_iff (cm : DNSCacheManager) (hget : get cache domain = some host)
    (hip : host.ip ≠ cantResolve) :
    (∀ now, host.updateDate ≤ now →
      (cm.lookup cache now domain =
          (if host.age now < cm.cacheLifeLimit then host.ip else cantResolve) ↔
        host.age now < cm.cacheLifeLimit ∨ cm.cacheLifeLimit ≤ host.age now % 86400)) ∧
    ((∀ now later, host.updateDate ≤ now → now ≤ later →
        cm.lookup cache now domain = cantResolve → cm.lookup cache later domain = cantResolve) ↔
      cm.cacheLifeLimit ≤ 0 ∨ 86400 ≤ cm.cacheLifeLimit) :=
  ⟨fun _ hnow => lookup_eq_iff_of_get cm hget hip hnow, never_revived_iff cm hget hip⟩

theorem oldAddress_fresh :
    (DNSCacheManager.mk 21600).lookup oldAddress 3600000000 ['g', '.', 'c', 'n'] =
      ['1', '.', '2', '.', '3', '.', '4'] := by
  have hexpires := (@lookup_expires_iff oldAddress ['g', '.', 'c', 'n'] _ ⟨21600⟩ rfl
    (by decide)).1 3600000000 (by decide)
  exact hexpires.mpr (by decide)

/-- The entry is out of time after seven hours and valid again after a day. -/
theorem oldAddress_valid_again :
    (DNSCacheManager.mk 21600).lookup oldAddress 25200000000 ['g', '.', 'c', 'n'] = cantResolve ∧
    (DNSCacheManager.mk 21600).lookup oldAddress 86400000000 ['g', '.', 'c', 'n'] =
      ['1', '.', '2', '.', '3', '.', '4'] := by
  decide

end DNSCacheManager

end CodeSlices.DnsRelay
