import CodeSlices.DnsRelay.Cache
import CodeSlices.DnsRelay.Web

/-!
# Requests

`MainHandler.get` of `tools/dnsrelay/main.py` with `DNSHosts.lookup` of `dnshosts.py` and the
switches of `config.py`. The two web resolvers are parameters here: each answers for a name or
raises `WebRequestError`.
-/

namespace CodeSlices.DnsRelay

structure DNSConfig where
  useHosts : Bool := false
  cacheWebQuery : Bool := true
  useCache : Bool := true
  cacheLife : Int := 60 * 60 * 6

/-- The readings of the clock in one request, by the call that takes them. -/
structure Clock where
  hostsUpdate : DateTime
  cacheLookup : DateTime
  lookupserverUpdate : DateTime
  blokeUpdate : DateTime
  failedUpdate : DateTime

structure Resolvers where
  lookupserver : Str → Except WebRequestError Str
  bloke : Str → Except WebRequestError Str

/-- The parameters `d`, `uh` and `uc` with their defaults filled in, and the whole query string. -/
structure Request where
  d : Str
  queryString : Str
  uh : Int
  uc : Int

structure World where
  hosts : Table Host
  cache : Table HostCache
  /-- What was written to the response. -/
  out : List Str

structure Outcome where
  raised : Option PyError
  world : World

def World.write (w : World) (text : Str) : World := { w with out := w.out ++ [text] }

def World.updateCache (w : World) (now : DateTime) (domain ip : Str) (hit : Bool) : World :=
  { w with cache := DNSCacheManager.update w.cache now domain ip hit }

namespace DNSHosts

def doHostsLookup (hosts : Table Host) (domain : Str) : Str :=
  match hosts.select fun host => host.domain == domain with
  | some (_, host) => if host.ip.isEmpty then cantResolve else host.ip
  | none => cantResolve

/-- The answer, which `lookup` also records in the cache. -/
def lookup (w : World) (now : DateTime) (domain : Str) : Str × World :=
  let address := if 0 < domain.length then doHostsLookup w.hosts domain else cantResolve
  (address, w.updateCache now domain address (address != cantResolve))

end DNSHosts

namespace MainHandler

variable (config : DNSConfig) (request : Request) (now : DateTime) (domain : Str)

def hostsEnabled : Bool := config.useHosts || request.uh != 0

def cacheEnabled : Bool := config.useCache || request.uc != 0

/-- "Query from hosts datastore"; `next` is the rest of the handler and `ret` its local variable. -/
def queryHosts (w : World) (next : Option Str → World → Outcome) : Outcome :=
  if hostsEnabled config request then
    let (ret, w) := DNSHosts.lookup w now domain
    if ret ≠ cantResolve then ⟨none, w.write ret⟩ else next (some ret) w
  else next none w

/-- "Query from cache" -/
def queryCache (ret : Option Str) (w : World) (next : Option Str → World → Outcome) : Outcome :=
  if cacheEnabled config request then
    let ret := (DNSCacheManager.mk config.cacheLife).lookup w.cache now domain
    if ret ≠ cantResolve then ⟨none, w.write ret⟩ else next (some ret) w
  else next ret w

/-- "Query from web", for one resolver. -/
def queryWeb (resolver : Str → Except WebRequestError Str) (ret : Option Str) (w : World)
    (next : Option Str → World → Outcome) : Outcome :=
  match resolver domain with
  | .error _ => next ret w
  | .ok ret =>
      if ret ≠ cantResolve then
        let w := w.write ret
        ⟨none, if config.cacheWebQuery then w.updateCache now domain ret true else w⟩
      else next (some ret) w

/-- "Can't be resovled" -/
def giveUp (ret : Option Str) (w : World) : Outcome :=
  if config.cacheWebQuery then
    match ret with
    | some ret => ⟨none, (w.updateCache now domain ret false).write cantResolve⟩
    | none => ⟨some .unboundLocalError, w⟩
  else ⟨none, w.write cantResolve⟩

variable (clock : Clock) (resolvers : Resolvers)

def resolve (w : World) : Outcome :=
  queryHosts config request clock.hostsUpdate domain w fun ret w =>
    queryCache config request clock.cacheLookup domain ret w fun ret w =>
      queryWeb config clock.lookupserverUpdate domain resolvers.lookupserver ret w fun ret w =>
        queryWeb config clock.blokeUpdate domain resolvers.bloke ret w fun ret w =>
          giveUp config clock.failedUpdate domain ret w

/-- `domain` before it is unshaken. -/
def requestDomain : Str := if request.d = [] then request.queryString else request.d

def get (w : World) : Outcome :=
  if (requestDomain request).length = 0 then ⟨none, w.write cantResolve⟩
  else
    match unshake (requestDomain request) with
    | .error e => ⟨some e, w⟩
    | .ok domain =>
        if isValidHostname domain then resolve config request domain clock resolvers w
        else ⟨none, w.write cantResolve⟩

/-! ### The answer a request should get -/

/-- What a resolver contributes: nothing when it raises. -/
def webAnswer (resolver : Str → Except WebRequestError Str) : List Str :=
  match resolver domain with
  | .error _ => []
  | .ok answer => [answer]

def cacheAnswer (w : World) : List Str :=
  if cacheEnabled config request then
    [(DNSCacheManager.mk config.cacheLife).lookup w.cache now domain]
  else []

/-- The answers of the enabled sources in the order in which they are asked; the cache is asked
after the hosts table has recorded its own answer. -/
def answers (w : World) : List Str :=
  let web := webAnswer domain resolvers.lookupserver ++ webAnswer domain resolvers.bloke
  if hostsEnabled config request then
    let (address, w) := DNSHosts.lookup w clock.hostsUpdate domain
    address :: (cacheAnswer config request clock.cacheLookup domain w ++ web)
  else cacheAnswer config request clock.cacheLookup domain w ++ web

def firstAnswer (answers : List Str) : Str :=
  (answers.find? fun answer => answer != cantResolve).getD cantResolve

def expected (w : World) : Str :=
  let domain := swapPairs (requestDomain request)
  if isValidHostname domain then firstAnswer (answers config request domain clock resolvers w)
  else cantResolve

/-- The request ends without an exception, after one response. -/
def Answered (o : Outcome) (out : List Str) (answer : Str) : Prop :=
  o.raised = none ∧ o.world.out = out ++ [answer]

def Fails (resolver : Str → Except WebRequestError Str) (domain : Str) : Prop :=
  ∃ e, resolver domain = .error e

variable {config request now domain clock resolvers} {w : World} {ret : Option Str}
  {next : Option Str → World → Outcome} {resolver : Str → Except WebRequestError Str}

theorem answered_write (text : Str) : Answered ⟨none, w.write text⟩ w.out text := ⟨rfl, rfl⟩

theorem firstAnswer_cons (answer : Str) (rest : List Str) :
    firstAnswer (answer :: rest) = if answer ≠ cantResolve then answer else firstAnswer rest := by
  by_cases h : answer = cantResolve
  · rw [if_neg (not_not_intro h), firstAnswer, List.find?_cons_of_neg (by simp [h])]
    rfl
  · rw [if_pos h, firstAnswer, List.find?_cons_of_pos (by simp [h])]
    rfl

theorem answered_giveUp_iff :
    Answered (giveUp config now domain ret w) w.out (firstAnswer []) ↔
      ¬ (ret = none ∧ config.cacheWebQuery) := by
  unfold giveUp
  split
  · rename_i hcache
    cases ret with
    | none => exact iff_of_false (fun h => nomatch h.1) (not_not_intro ⟨rfl, hcache⟩)
    | some ret => exact iff_of_true ⟨rfl, rfl⟩ (fun h => nomatch h.1)
  · rename_i hcache
    exact iff_of_true ⟨rfl, rfl⟩ (fun h => hcache h.2)

/-- The rest of the handler answers unless `ret` is unbound where `C` holds. -/
def AnswersUnless (next : Option Str → World → Outcome) (w : World) (rest : List Str) (C : Prop) :
    Prop :=
  ∀ ret, Answered (next ret w) w.out (firstAnswer rest) ↔ ¬ (ret = none ∧ C)

/-- A source that gives an answer: either it is written, or it is `-` and `ret` is bound. -/
theorem answered_answer {C : Prop} {rest : List Str} {answer : Str} {o : Outcome}
    (hnext : AnswersUnless next w rest C) (ho : Answered o w.out answer) :
    Answered (if answer ≠ cantResolve then o else next (some answer) w) w.out
      (firstAnswer (answer :: rest)) := by
  rw [firstAnswer_cons]
  split
  · exact ho
  · exact (hnext (some answer)).mpr (fun h => nomatch h.1)

theorem answersUnless_queryWeb (config : DNSConfig) (now : DateTime) (domain : Str)
    (resolver : Str → Except WebRequestError Str) {C : Prop} {rest : List Str}
    (hnext : AnswersUnless next w rest C) :
    AnswersUnless (fun ret w => queryWeb config now domain resolver ret w next) w
      (webAnswer domain resolver ++ rest) (Fails resolver domain ∧ C) := by
  intro ret
  unfold queryWeb webAnswer Fails
  cases resolver domain with
  | error e =>
      have hfails : ∃ e', Except.error e = (.error e' : Except WebRequestError Str) := ⟨e, rfl⟩
      rw [and_iff_right hfails]
      exact hnext ret
  | ok answer =>
      refine iff_of_true (answered_answer hnext ?_) (fun h => nomatch h.2.1.choose_spec)
      split
      · exact ⟨rfl, rfl⟩
      · exact ⟨rfl, rfl⟩

theorem answersUnless_queryCache (config : DNSConfig) (request : Request) (now : DateTime)
    (domain : Str) {C : Prop} {rest : List Str} (hnext : AnswersUnless next w rest C) :
    AnswersUnless (fun ret w => queryCache config request now domain ret w next) w
      (cacheAnswer config request now domain w ++ rest)
      (cacheEnabled config request = false ∧ C) := by
  intro ret
  unfold queryCache cacheAnswer
  cases cacheEnabled config request with
  | true => exact iff_of_true (answered_answer hnext (answered_write _)) (fun h => nomatch h.2.1)
  | false =>
      rw [and_iff_right rfl]
      exact hnext ret

theorem answersUnless_afterHosts (config : DNSConfig) (request : Request) (domain : Str)
    (clock : Clock) (resolvers : Resolvers) (w : World) :
    AnswersUnless (fun ret w => queryCache config request clock.cacheLookup domain ret w
        fun ret w =>
      queryWeb config clock.lookupserverUpdate domain resolvers.lookupserver ret w fun ret w =>
        queryWeb config clock.blokeUpdate domain resolvers.bloke ret w fun ret w =>
          giveUp config clock.failedUpdate domain ret w) w
      (cacheAnswer config request clock.cacheLookup domain w ++
        (webAnswer domain resolvers.lookupserver ++ webAnswer domain resolvers.bloke))
      (cacheEnabled config request = false ∧ Fails resolvers.lookupserver domain ∧
        Fails resolvers.bloke domain ∧ config.cacheWebQuery) := by
  have hgiveUp : AnswersUnless (fun ret w => giveUp config clock.failedUpdate domain ret w) w []
      config.cacheWebQuery := fun _ => answered_giveUp_iff
  have hbloke := answersUnless_queryWeb config clock.blokeUpdate domain resolvers.bloke hgiveUp
  rw [List.append_nil] at hbloke
  exact answersUnless_queryCache config request clock.cacheLookup domain
    (answersUnless_queryWeb config clock.lookupserverUpdate domain resolvers.lookupserver hbloke)

theorem answered_resolve_iff :
    Answered (resolve config request domain clock resolvers w) w.out
        (firstAnswer (answers config request domain clock resolvers w)) ↔
      ¬ (hostsEnabled config request = false ∧ cacheEnabled config request = false ∧
        Fails resolvers.lookupserver domain ∧ Fails resolvers.bloke domain ∧
          config.cacheWebQuery) := by
  unfold resolve queryHosts answers
  cases hostsEnabled config request with
  | true =>
      refine iff_of_true ?_ (fun h => nomatch h.1)
      exact answered_answer (answersUnless_afterHosts config request domain clock resolvers _)
        (answered_write _)
  | false =>
      rw [and_iff_right rfl]
      have hafter := answersUnless_afterHosts config request domain clock resolvers w none
      rwa [and_iff_right rfl] at hafter

/-- A request for a valid name with hosts table and cache disabled, when both resolvers raise and
`cache_web_query` is set: `ret` is read before anything was assigned to it. -/
def Unbound (config : DNSConfig) (request : Request) (resolvers : Resolvers) : Prop :=
  let domain := swapPairs (requestDomain request)
  isValidHostname domain ∧ hostsEnabled config request = false ∧
    cacheEnabled config request = false ∧ Fails resolvers.lookupserver domain ∧
      Fails resolvers.bloke domain ∧ config.cacheWebQuery

theorem isValidHostname_nil : isValidHostname [] = false := by decide

/-- `get` raises nothing and writes one response, the answer of the first source that has one,
exactly when the request does not end at the unbound `ret`. -/
theorem get_answered_iff (config : DNSConfig) (request : Request) (clock : Clock)
    (resolvers : Resolvers) (w : World) :
    (get config request clock resolvers w).raised = none ∧
        (get config request clock resolvers w).world.out =
          w.out ++ [expected config request clock resolvers w] ↔
      ¬ Unbound config request resolvers := by
  change Answered (get config request clock resolvers w) w.out _ ↔ _
  unfold get expected Unbound
  by_cases hlen : (requestDomain request).length = 0
  · have hnil : requestDomain request = [] := List.eq_nil_of_length_eq_zero hlen
    simp only [hnil, List.length_nil, if_true, swapPairs, isValidHostname_nil, Bool.false_eq_true,
      if_false, false_and, not_false_eq_true, iff_true]
    exact answered_write _
  · rw [if_neg hlen, unshake_eq]
    by_cases hvalid : isValidHostname (swapPairs (requestDomain request))
    · simp only [hvalid, if_true, true_and]
      exact answered_resolve_iff
    · simp only [hvalid, Bool.false_eq_true, if_false, false_and, not_false_eq_true, iff_true]
      exact answered_write _

/-- With only `cache_web_query` on and both web servers out of reach a request for `g.cn` raises,
and nothing is written. -/
theorem get_unbound :
    let config : DNSConfig := { useHosts := false, useCache := false, cacheWebQuery := true }
    let resolvers : Resolvers :=
      ⟨fun _ => .error .webRequestError, fun _ => .error .webRequestError⟩
    let o := get config ⟨['.', 'g', 'n', 'c'], [], 0, 0⟩ ⟨0, 0, 0, 0, 0⟩ resolvers
      ⟨Table.empty, Table.empty, []⟩
    o.raised = some .unboundLocalError ∧ o.world.out = [] := by
  decide

end MainHandler

end CodeSlices.DnsRelay
