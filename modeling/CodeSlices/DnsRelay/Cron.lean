import Mathlib.Data.List.Sort
import CodeSlices.DnsRelay.Cache
import CodeSlices.Lib.Batch
import CodeSlices.Lib.Except

/-!
# Cleaning the cache

`DNSCacheManager.delete_old_cache` of `tools/dnsrelay/dnscache.py` and the handler of
`tools/dnsrelay/cron.py`. A date is the number of microseconds since the year 1 began, and what is
not between that and the end of the year 9999 overflows.
-/

namespace CodeSlices.DnsRelay

inductive DateError
  | overflowError
  deriving DecidableEq

def maxDays : Int := 999999999

/-- `timedelta(seconds=seconds)` -/
def timedelta (seconds : Int) : Except DateError TimeDelta :=
  if -maxDays ≤ seconds / 86400 ∧ seconds / 86400 ≤ maxDays then
    .ok { days := seconds / 86400, seconds := seconds % 86400, microseconds := 0 }
  else .error .overflowError

def TimeDelta.total (delta : TimeDelta) : Int :=
  (delta.days * 86400 + delta.seconds) * 1000000 + delta.microseconds

/-- From the first day of the year 1 to the last one of the year 9999. -/
def IsDate (date : DateTime) : Prop := 0 ≤ date ∧ date < 3652059 * 86400000000

instance (date : DateTime) : Decidable (IsDate date) := inferInstanceAs (Decidable (_ ∧ _))

/-- `date - delta` -/
def DateTime.back (date : DateTime) (delta : TimeDelta) : Except DateError DateTime :=
  if IsDate (date - delta.total) then .ok (date - delta.total) else .error .overflowError

/-- `WHERE update_date < :1` -/
def updatedBefore (limit : DateTime) (host : HostCache) : Bool := host.updateDate < limit

/-- The order in which the rows of that query come. -/
def Older (a b : Nat × HostCache) : Prop :=
  a.2.updateDate < b.2.updateDate ∨ a.2.updateDate = b.2.updateDate ∧ a.1 ≤ b.1

instance : DecidableRel Older := fun _ _ => inferInstanceAs (Decidable (_ ∨ _ ∧ _))

/-- `hosts.fetch(n)` -/
def fetch (limit : DateTime) (n : Nat) (cache : Table HostCache) : List (Nat × HostCache) :=
  ((cache.rows.filter fun row => updatedBefore limit row.2).insertionSort Older).take n

namespace DNSCacheManager

/-- `delete_old_cache`, with the number of fetches that it may do. An error is raised before the
first of them. -/
def deleteOldCache (fuel : Nat) (cache : Table HostCache) (now : DateTime) (lifeLimit : Int) :
    Except DateError (Option (Table HostCache)) := do
  let delta ← timedelta lifeLimit
  let limit ← now.back delta
  .ok (Table.deleteLoop (fetch limit 100) fuel cache)

end DNSCacheManager

def cacheCronLife : Int := 60 * 60 * 24 * 7

def CleanOldCacheHandler.get (fuel : Nat) (cache : Table HostCache) (now : DateTime) :
    Except DateError (Option (Table HostCache)) :=
  DNSCacheManager.deleteOldCache fuel cache now cacheCronLife

/-- The call ends, and leaves the rows that are not older than the limit as they were. -/
def CleansUp (cache : Table HostCache) (now : DateTime) (lifeLimit : Int) : Prop :=
  ∃ fetches, ∀ fuel, fetches ≤ fuel →
    DNSCacheManager.deleteOldCache fuel cache now lifeLimit =
      .ok (some (cache.keep fun host => now - 1000000 * lifeLimit ≤ host.updateDate))

variable {cache : Table HostCache} {now limit : DateTime} {lifeLimit : Int} {fuel n : Nat}

/-! ### One fetch -/

theorem isBatch_fetch (limit : DateTime) (n : Nat) (cache : Table HostCache) :
    Table.IsBatch (updatedBefore limit) n cache (fetch limit n cache) := by
  obtain ⟨rows, hrows⟩ : ∃ rows,
      rows = (cache.keep (updatedBefore limit)).rows.insertionSort Older := ⟨_, rfl⟩
  have hperm : (cache.keep (updatedBefore limit)).rows.Perm rows :=
    hrows ▸ (List.perm_insertionSort Older _).symm
  have hfetch : fetch limit n cache = rows.take n := by rw [hrows]; rfl
  refine ⟨rows.drop n, by rwa [hfetch, List.take_append_drop], ?_⟩
  rw [hfetch, List.length_take, List.drop_eq_nil_iff]
  omega

/-! ### The limit -/

theorem total_timedelta {delta : TimeDelta} (hdelta : timedelta lifeLimit = .ok delta) :
    delta.total = 1000000 * lifeLimit := by
  rw [timedelta] at hdelta
  split_ifs at hdelta
  obtain rfl := Except.ok.inj hdelta
  simp only [TimeDelta.total]
  omega

/-- Between two dates there are few enough days for a `timedelta`. -/
theorem days_le_maxDays {date seconds : Int} (hdate : IsDate date)
    (hback : IsDate (date - 1000000 * seconds)) :
    -maxDays ≤ seconds / 86400 ∧ seconds / 86400 ≤ maxDays := by
  obtain ⟨hfirst, hlast⟩ : 0 ≤ date ∧ date < 3652059 * 86400000000 := hdate
  obtain ⟨hfirst', hlast'⟩ : 0 ≤ date - 1000000 * seconds ∧
    date - 1000000 * seconds < 3652059 * 86400000000 := hback
  rw [maxDays]
  omega

theorem deleteOldCache_of_isDate (hnow : IsDate now)
    (hlimit : IsDate (now - 1000000 * lifeLimit)) (fuel : Nat) (cache : Table HostCache) :
    DNSCacheManager.deleteOldCache fuel cache now lifeLimit =
      .ok (Table.deleteLoop (fetch (now - 1000000 * lifeLimit) 100) fuel cache) := by
  obtain ⟨delta, hdelta⟩ : ∃ delta, timedelta lifeLimit = .ok delta :=
    ⟨_, if_pos (days_le_maxDays hnow hlimit)⟩
  have htotal := total_timedelta hdelta
  rw [DNSCacheManager.deleteOldCache, hdelta, ok_bind, DateTime.back, htotal, if_pos hlimit,
    ok_bind]

/-- An overflow, whether of the difference or of the date, comes before anything is deleted. -/
theorem deleteOldCache_of_not_isDate (hlimit : ¬ IsDate (now - 1000000 * lifeLimit)) (fuel : Nat)
    (cache : Table HostCache) :
    DNSCacheManager.deleteOldCache fuel cache now lifeLimit = .error .overflowError := by
  rw [DNSCacheManager.deleteOldCache]
  cases hdelta : timedelta lifeLimit with
  | error e => rfl
  | ok delta =>
      rw [ok_bind, DateTime.back, total_timedelta hdelta, if_neg hlimit, error_bind]

theorem keep_not_updatedBefore (cache : Table HostCache) (limit : DateTime) :
    (cache.keep fun host => !updatedBefore limit host) =
      cache.keep fun host => limit ≤ host.updateDate := by
  refine congrArg cache.keep (funext fun host => ?_)
  rw [updatedBefore, ← decide_not, decide_eq_decide, Int.not_lt]

/-- A fetch finds the next hundred old rows, and so the loop ends when all of them are deleted. -/
theorem cleansUp_of_isDate (cache : Table HostCache) (hnow : IsDate now)
    (hlimit : IsDate (now - 1000000 * lifeLimit)) : CleansUp cache now lifeLimit := by
  obtain ⟨old, hold⟩ : ∃ old,
      old = (cache.keep (updatedBefore (now - 1000000 * lifeLimit))).rows.length := ⟨_, rfl⟩
  refine ⟨(old + 99) / 100 + 1, fun fuel hfuel => ?_⟩
  obtain ⟨fuel, rfl⟩ : ∃ f, fuel = f + 1 := ⟨fuel - 1, by omega⟩
  rw [deleteOldCache_of_isDate hnow hlimit,
    Table.deleteLoop_eq (by decide) (isBatch_fetch _ 100) (by omega), keep_not_updatedBefore]

/-- The handler leaves what was updated within a week. -/
theorem CleanOldCacheHandler.get_eq (cache : Table HostCache) (hnow : IsDate now)
    (hweek : IsDate (now - 1000000 * cacheCronLife)) : ∃ fetches, ∀ fuel, fetches ≤ fuel →
      CleanOldCacheHandler.get fuel cache now =
        .ok (some (cache.keep fun host => now - 1000000 * cacheCronLife ≤ host.updateDate)) :=
  cleansUp_of_isDate cache hnow hweek

/-- The cleaning does what it should for every table exactly when its limit is a date. -/
theorem cleansUp_iff (cache : Table HostCache) (now : DateTime) (lifeLimit : Int)
    (hnow : IsDate now) : CleansUp cache now lifeLimit ↔ IsDate (now - 1000000 * lifeLimit) := by
  refine ⟨fun ⟨fetches, hends⟩ => ?_, cleansUp_of_isDate cache hnow⟩
  by_contra hlimit
  cases (hends fetches le_rfl).symm.trans (deleteOldCache_of_not_isDate hlimit fetches cache)

open DNSCacheManager (oldAddress)

/-- In June 2010 the row of `oldAddress` is more than a week old. -/
theorem oldAddress_cleansUp : CleansUp oldAddress 63410947200000000 604800 :=
  (cleansUp_iff oldAddress 63410947200000000 604800 (by decide)).mpr (by decide)

/-- A limit of three thousand years is before the year 1: nothing is deleted. -/
theorem longLife_overflows :
    (∀ fuel, DNSCacheManager.deleteOldCache fuel oldAddress 63410947200000000 100000000000 =
      .error .overflowError) ∧
    ¬ CleansUp oldAddress 63410947200000000 100000000000 := by
  have hoverflows : ∀ fuel, DNSCacheManager.deleteOldCache fuel oldAddress 63410947200000000
      100000000000 = .error .overflowError :=
    fun fuel => deleteOldCache_of_not_isDate (by decide) fuel oldAddress
  refine ⟨hoverflows, fun ⟨fetches, hends⟩ => ?_⟩
  cases (hends fetches le_rfl).symm.trans (hoverflows fetches)

end CodeSlices.DnsRelay
