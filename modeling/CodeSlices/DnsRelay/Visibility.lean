import CodeSlices.DnsRelay.Served

/-!
# Who sees the hosts table

`DNSHosts.lookup` records its answer in the cache, and the cache is asked for everybody. So what a
request without `uh` sees of the hosts table is what an earlier request with `uh` for the same name
left in the cache, and no more than that.
-/

namespace CodeSlices.DnsRelay

open CodeSlices.Transition

namespace MainHandler

variable {config : DNSConfig} {request : Request} {clock : Clock} {domain : Str}
  {resolvers : Resolvers} {w : World} {I : World → Prop}

/-- What every answer written and every update of the name keep, the handler keeps. -/
structure KeptFor (domain : Str) (I : World → Prop) : Prop where
  write : ∀ w text, I w → I (w.write text)
  updateCache : ∀ w now ip hit, I w → I (w.updateCache now domain ip hit)

theorem KeptFor.queryWeb {next : Option Str → World → Outcome} (hI : KeptFor domain I)
    (now : DateTime) (resolver : Str → Except WebRequestError Str)
    (hnext : ∀ ret w, I w → I (next ret w).world) (ret : Option Str) (hw : I w) :
    I (queryWeb config now domain resolver ret w next).world := by
  unfold MainHandler.queryWeb
  cases resolver domain with
  | error e => exact hnext ret w hw
  | ok answer =>
      dsimp only
      split
      · split
        · exact hI.updateCache _ now answer true (hI.write w answer hw)
        · exact hI.write w answer hw
      · exact hnext (some answer) w hw

theorem KeptFor.queryCache {next : Option Str → World → Outcome} (hI : KeptFor domain I)
    (now : DateTime) (hnext : ∀ ret w, I w → I (next ret w).world) (ret : Option Str) (hw : I w) :
    I (queryCache config request now domain ret w next).world := by
  unfold MainHandler.queryCache
  split
  · dsimp only
    split
    · exact hI.write w _ hw
    · exact hnext _ w hw
  · exact hnext ret w hw

theorem KeptFor.queryHosts {next : Option Str → World → Outcome} (hI : KeptFor domain I)
    (now : DateTime) (hnext : ∀ ret w, I w → I (next ret w).world) (hw : I w) :
    I (queryHosts config request now domain w next).world := by
  unfold MainHandler.queryHosts
  split
  · have hlookup : I (DNSHosts.lookup w now domain).2 := hI.updateCache w now _ _ hw
    dsimp only
    split
    · exact hI.write _ _ hlookup
    · exact hnext _ _ hlookup
  · exact hnext none w hw

theorem KeptFor.giveUp (hI : KeptFor domain I) (now : DateTime) (ret : Option Str) (hw : I w) :
    I (giveUp config now domain ret w).world := by
  unfold MainHandler.giveUp
  split
  · cases ret with
    | none => exact hw
    | some ret => exact hI.write _ _ (hI.updateCache w now ret false hw)
  · exact hI.write w _ hw

theorem KeptFor.resolve (hI : KeptFor domain I) (hw : I w) :
    I (resolve config request domain clock resolvers w).world :=
  hI.queryHosts _ (fun _ _ hw => hI.queryCache _ (fun ret _ hw => hI.queryWeb _ _ (fun ret _ hw =>
    hI.queryWeb _ _ (fun ret _ hw => hI.giveUp _ ret hw) ret hw) ret hw) _ hw) hw

theorem KeptFor.get (hI : KeptFor (swapPairs (requestDomain request)) I) (hw : I w) :
    I (get config request clock resolvers w).world := by
  unfold MainHandler.get
  split
  · exact hI.write w _ hw
  · rw [unshake_eq]
    dsimp only
    split
    · exact hI.resolve hw
    · exact hI.write w _ hw

theorem hosts_get : (get config request clock resolvers w).world.hosts = w.hosts :=
  KeptFor.get (I := fun v => v.hosts = w.hosts) ⟨fun _ _ h => h, fun _ _ _ _ h => h⟩ rfl

/-- A request changes the rows of no other name. -/
theorem cacheGet_get {other : Str} (hne : swapPairs (requestDomain request) ≠ other) :
    DNSCacheManager.get (get config request clock resolvers w).world.cache other =
      DNSCacheManager.get w.cache other :=
  KeptFor.get (I := fun v => DNSCacheManager.get v.cache other = DNSCacheManager.get w.cache other)
    ⟨fun _ _ h => h, fun v now ip hit h =>
      (DNSCacheManager.get_update_of_ne hne v.cache now ip hit).trans h⟩ rfl

/-! ### One request in two worlds -/

def SameRow (domain : Str) (w₁ w₂ : World) : Prop :=
  DNSCacheManager.get w₁.cache domain = DNSCacheManager.get w₂.cache domain

/-- The same response in both worlds, and the same row for the name afterwards. -/
structure Alike (domain : Str) (w₁ w₂ : World) (o₁ o₂ : Outcome) : Prop where
  row : SameRow domain o₁.world o₂.world
  out : ∃ r, o₁.world.out = w₁.out ++ [r] ∧ o₂.world.out = w₂.out ++ [r]

/-- The rest of the handler answers alike once its `ret` is bound. -/
def AlikeNext (domain : Str) (next : Option Str → World → Outcome) : Prop :=
  ∀ ret w₁ w₂, SameRow domain w₁ w₂ → Alike domain w₁ w₂ (next (some ret) w₁) (next (some ret) w₂)

variable {w₁ w₂ : World} {next : Option Str → World → Outcome}

theorem SameRow.updateCache (hrow : SameRow domain w₁ w₂) (now : DateTime) (ip : Str) (hit : Bool) :
    SameRow domain (w₁.updateCache now domain ip hit) (w₂.updateCache now domain ip hit) := by
  change DNSCacheManager.get (DNSCacheManager.update _ _ _ _ _) _ =
    DNSCacheManager.get (DNSCacheManager.update _ _ _ _ _) _
  rw [DNSCacheManager.get_update, DNSCacheManager.get_update]
  change DNSCacheManager.get w₁.cache domain = DNSCacheManager.get w₂.cache domain at hrow
  rw [hrow]

theorem SameRow.alike_write (hrow : SameRow domain w₁ w₂) (text : Str) :
    Alike domain w₁ w₂ ⟨none, w₁.write text⟩ ⟨none, w₂.write text⟩ := ⟨hrow, text, rfl, rfl⟩

theorem SameRow.lookup_eq (hrow : SameRow domain w₁ w₂) (cm : DNSCacheManager) (now : DateTime) :
    cm.lookup w₁.cache now domain = cm.lookup w₂.cache now domain := by
  change DNSCacheManager.get w₁.cache domain = DNSCacheManager.get w₂.cache domain at hrow
  rw [DNSCacheManager.lookup, DNSCacheManager.lookup, hrow]

/-- An update writes nothing to the response. -/
theorem Alike.of_updateCache {o₁ o₂ : Outcome} (now : DateTime) (name ip : Str) (hit : Bool)
    (h : Alike domain (w₁.updateCache now name ip hit) (w₂.updateCache now name ip hit) o₁ o₂) :
    Alike domain w₁ w₂ o₁ o₂ := ⟨h.row, h.out⟩

theorem alikeNext_giveUp (config : DNSConfig) (domain : Str) (now : DateTime) :
    AlikeNext domain fun ret w => giveUp config now domain ret w := by
  intro ret w₁ w₂ hrow
  unfold giveUp
  split
  · exact ⟨hrow.updateCache now ret false, cantResolve, rfl, rfl⟩
  · exact hrow.alike_write cantResolve

theorem alikeNext_queryWeb (config : DNSConfig) (now : DateTime)
    (resolver : Str → Except WebRequestError Str) (hnext : AlikeNext domain next) :
    AlikeNext domain fun ret w => queryWeb config now domain resolver ret w next := by
  intro ret w₁ w₂ hrow
  unfold queryWeb
  cases resolver domain with
  | error e => exact hnext ret w₁ w₂ hrow
  | ok answer =>
      dsimp only
      split
      · split
        · exact ⟨hrow.updateCache now answer true, answer, rfl, rfl⟩
        · exact hrow.alike_write answer
      · exact hnext answer w₁ w₂ hrow

theorem alike_queryCache (hcache : cacheEnabled config request) (hnext : AlikeNext domain next)
    (now : DateTime) (ret : Option Str) (hrow : SameRow domain w₁ w₂) :
    Alike domain w₁ w₂ (queryCache config request now domain ret w₁ next)
      (queryCache config request now domain ret w₂ next) := by
  unfold queryCache
  rw [if_pos hcache, if_pos hcache, hrow.lookup_eq]
  dsimp only
  split
  · exact hrow.alike_write _
  · exact hnext _ w₁ w₂ hrow

theorem alike_resolve (hcache : cacheEnabled config request)
    (hhosts : hostsEnabled config request →
      DNSHosts.doHostsLookup w₁.hosts domain = DNSHosts.doHostsLookup w₂.hosts domain)
    (hrow : SameRow domain w₁ w₂) :
    Alike domain w₁ w₂ (resolve config request domain clock resolvers w₁)
      (resolve config request domain clock resolvers w₂) := by
  have hbloke := alikeNext_queryWeb config clock.blokeUpdate resolvers.bloke
    (alikeNext_giveUp config domain clock.failedUpdate)
  have hweb := alikeNext_queryWeb config clock.lookupserverUpdate resolvers.lookupserver hbloke
  unfold resolve queryHosts
  split
  · rename_i henabled
    unfold DNSHosts.lookup
    rw [hhosts henabled]
    generalize (if 0 < domain.length then DNSHosts.doHostsLookup w₂.hosts domain
      else cantResolve) = address
    have hupdated := hrow.updateCache clock.hostsUpdate address (address != cantResolve)
    refine Alike.of_updateCache clock.hostsUpdate domain address (address != cantResolve) ?_
    dsimp only
    split
    · exact hupdated.alike_write address
    · exact alike_queryCache hcache hweb clock.cacheLookup (some address) hupdated
  · exact alike_queryCache hcache hweb clock.cacheLookup none hrow

variable (clock resolvers) in
theorem alike_get (hcache : cacheEnabled config request)
    (hhosts : hostsEnabled config request →
      DNSHosts.doHostsLookup w₁.hosts (swapPairs (requestDomain request)) =
        DNSHosts.doHostsLookup w₂.hosts (swapPairs (requestDomain request)))
    (hrow : SameRow (swapPairs (requestDomain request)) w₁ w₂) :
    Alike (swapPairs (requestDomain request)) w₁ w₂ (get config request clock resolvers w₁)
      (get config request clock resolvers w₂) := by
  unfold get
  split
  · exact hrow.alike_write cantResolve
  · rw [unshake_eq]
    dsimp only
    split
    · exact alike_resolve hcache hhosts hrow
    · exact hrow.alike_write cantResolve

end MainHandler

/-! ### Runs over two hosts tables -/

namespace Served

open MainHandler

variable {config : DNSConfig} {hosts₁ hosts₂ : Table Host} {domain : Str} {w₁ w₂ u₁ u₂ : World}
  {es : List Event}

/-- Whether the request sets `uh`. -/
def Event.SetsUh (e : Event) : Prop := e.request.uh ≠ 0

/-- No request of the run has both asked the hosts table for the name and been told differently by
the two tables. -/
def Untold (hosts₁ hosts₂ : Table Host) (es : List Event) (domain : Str) : Prop :=
  (∃ e ∈ es, e.SetsUh ∧ e.domain = domain) →
    DNSHosts.doHostsLookup hosts₁ domain = DNSHosts.doHostsLookup hosts₂ domain

theorem sameRow_of_exec (huse : config.useHosts = false) (hcache : config.useCache = true)
    (hrow : SameRow domain w₁ w₂) (huntold : Untold w₁.hosts w₂.hosts es domain)
    (hrun₁ : exec (step config) w₁ es = some u₁) (hrun₂ : exec (step config) w₂ es = some u₂) :
    SameRow domain u₁ u₂ := by
  induction es generalizing w₁ w₂ with
  | nil => rwa [← Option.some.inj hrun₁, ← Option.some.inj hrun₂]
  | cons e es ih =>
      obtain ⟨v₁, hv₁, hrest₁⟩ := (exec_cons_eq_some_iff (step config)).mp hrun₁
      obtain ⟨v₂, hv₂, hrest₂⟩ := (exec_cons_eq_some_iff (step config)).mp hrun₂
      obtain rfl := Option.some.inj hv₁
      obtain rfl := Option.some.inj hv₂
      refine ih ?_ ?_ hrest₁ hrest₂
      · by_cases hname : e.domain = domain
        · subst hname
          refine (alike_get _ _ ?_
            (fun henabled => huntold ⟨e, List.mem_cons_self, ?_, rfl⟩) hrow).row
          · rw [cacheEnabled, hcache, Bool.true_or]
          · rw [hostsEnabled, huse, Bool.false_or, bne_iff_ne] at henabled
            exact henabled
        · exact (cacheGet_get hname).trans (hrow.trans (cacheGet_get hname).symm)
      · rw [hosts_get, hosts_get]
        rintro ⟨e', he', hname⟩
        exact huntold ⟨e', List.mem_cons_of_mem e he', hname⟩

/-- Over two hosts tables, a request without `uh` gets the same response unless an earlier request
with `uh` asked for the same name and the two tables answer that name differently. -/
theorem same_response_of_untold (huse : config.useHosts = false) (hcache : config.useCache = true)
    (hsame : w₁.cache = w₂.cache) (hrun₁ : exec (step config) w₁ es = some u₁)
    (hrun₂ : exec (step config) w₂ es = some u₂) {e : Event} (huh : ¬ e.SetsUh)
    (huntold : Untold w₁.hosts w₂.hosts es e.domain) :
    ∃ r, (step config u₁ e).map World.out = some (u₁.out ++ [r]) ∧
      (step config u₂ e).map World.out = some (u₂.out ++ [r]) := by
  have hrow := sameRow_of_exec huse hcache (congrArg (DNSCacheManager.get · e.domain) hsame) huntold
    hrun₁ hrun₂
  have hdisabled : ¬ hostsEnabled config e.request := by
    rw [hostsEnabled, huse, Bool.false_or, bne_iff_ne]
    exact huh
  have henabled : cacheEnabled config e.request := by rw [cacheEnabled, hcache, Bool.true_or]
  obtain ⟨r, hout₁, hout₂⟩ := (alike_get e.clock (webResolvers e.fetch) henabled
    (fun h => absurd h hdisabled) hrow).out
  exact ⟨r, congrArg some hout₁, congrArg some hout₂⟩

def hostsTable : Table Host where
  rows := [(1, ⟨['1', '.', '2', '.', '3', '.', '4'], ['g', '.', 'c', 'n']⟩)]
  nodup := by decide

/-- A request while both web servers are out of reach. -/
def ask (name : Str) (uh : Int) : Event :=
  ⟨⟨swapPairs name, [], uh, 0⟩, ⟨0, 0, 0, 0, 0⟩, fun _ _ => .error .downloadError⟩

theorem otherName_same_response : ∃ u₁ u₂ r,
    exec (step {}) ⟨hostsTable, Table.empty, []⟩ [ask ['g', '.', 'c', 'n'] 1] = some u₁ ∧
    exec (step {}) ⟨Table.empty, Table.empty, []⟩ [ask ['g', '.', 'c', 'n'] 1] = some u₂ ∧
    (step {} u₁ (ask ['a', '.', 'c', 'n'] 0)).map World.out = some (u₁.out ++ [r]) ∧
      (step {} u₂ (ask ['a', '.', 'c', 'n'] 0)).map World.out = some (u₂.out ++ [r]) := by
  have huntold : Untold hostsTable Table.empty [ask ['g', '.', 'c', 'n'] 1]
      (ask ['a', '.', 'c', 'n'] 0).domain := by
    rintro ⟨e, he, _, hname⟩
    rw [List.mem_singleton.mp he] at hname
    exact absurd hname (by decide)
  have hsame := @same_response_of_untold {} ⟨hostsTable, Table.empty, []⟩
    ⟨Table.empty, Table.empty, []⟩ _ _ [ask ['g', '.', 'c', 'n'] 1] rfl rfl rfl rfl rfl
    (ask ['a', '.', 'c', 'n'] 0) (fun huh => huh rfl) huntold
  obtain ⟨r, hout₁, hout₂⟩ := hsame
  exact ⟨_, _, r, rfl, rfl, hout₁, hout₂⟩

/-- After a request with `uh` the entry for `g.cn` is in the cache, so a request without `uh` is
answered with it; with an empty hosts table it is answered `-`. -/
theorem hostsEntry_visible : ∃ u₁ u₂,
    exec (step {}) ⟨hostsTable, Table.empty, []⟩
        [ask ['g', '.', 'c', 'n'] 1, ask ['g', '.', 'c', 'n'] 0] = some u₁ ∧
      exec (step {}) ⟨Table.empty, Table.empty, []⟩
        [ask ['g', '.', 'c', 'n'] 1, ask ['g', '.', 'c', 'n'] 0] = some u₂ ∧
      ¬ (ask ['g', '.', 'c', 'n'] 0).SetsUh ∧
      u₁.out = [['1', '.', '2', '.', '3', '.', '4'], ['1', '.', '2', '.', '3', '.', '4']] ∧
      u₂.out = [cantResolve, cantResolve] :=
  ⟨_, _, rfl, rfl, fun huh => huh rfl, by decide, by decide⟩

end Served

end CodeSlices.DnsRelay
