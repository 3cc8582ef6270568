import Mathlib.Logic.Function.Basic
import CachePurge.Access

/-! How a location gets its purge settings: ngx_http_cache_purge_merge_loc_conf, from
the http context inwards, and which protocol's settings an enclosing context hands
down to the contexts inside it. -/
namespace CachePurge

inductive PurgeProtocol where
  | fastcgi | proxy | scgi | uwsgi
  deriving DecidableEq, Repr

def purgeProtocols : List PurgeProtocol := [.fastcgi,.proxy,.scgi,.uwsgi]

def PurgeProtocol.tried : PurgeProtocol → List PurgeProtocol
  | .fastcgi => []
  | .proxy => [.fastcgi]
  | .scgi => [.fastcgi,.proxy]
  | .uwsgi => [.fastcgi,.proxy,.scgi]

inductive ContentHandler where
  | queueStatus | refresh | gate
  | purge (p : PurgeProtocol)
  | other (n : Nat)
  deriving DecidableEq, Repr

/- ngx_http_cache_purge_conf_t; enable is none where it is NGX_CONF_UNSET. -/
structure PurgeConf where
  enable : Option Bool
  method : Bytes
  purgeAll : Bool
  access : Option (List (Cidr 4))
  access6 : Option (List (Cidr 16))
  deriving DecidableEq

/- ngx_http_cache_purge_loc_conf_t. conf is the record that the pointer leads to, none
where the pointer is unset and some none where it is NULL. -/
structure LocConf where
  purge : PurgeProtocol → PurgeConf
  conf : Option (Option PurgeConf)
  handler : Option ContentHandler
  originalHandler : Option ContentHandler
  responseType : Option Nat
  queueStatusCachePath : Option Bytes
  threadPoolName : Option Bytes
  ns : Option Nat
  logicalKey : Bytes
  refresh : Bool
  refreshLocation : Option Bytes
  refreshPrefix : Bytes
  refreshTimeout : Option Nat
  proxySeparateZone : Option Nat
  proxySeparateValue : Option Nat
  proxySeparateKey : Bytes

structure CoreLoc where
  handler : Option ContentHandler
  noname : Bool
  deriving DecidableEq, Repr

/- The main configuration and the calls that can fail: ngx_array_push and
ngx_thread_pool_add. -/
structure MergeAnswers where
  backgroundPurge : Bool
  pushed : Bool
  poolAdded : Bool
  deriving DecidableEq, Repr

inductive MergeError where
  | logged (text : String)
  | failed
  deriving DecidableEq, Repr

def defaultPool : Bytes := [100,101,102,97,117,108,116]

def responseTypeJson : Nat := 3

def createLocConf : LocConf where
  purge := fun _ => ⟨none,[],false,none,none⟩
  conf := none
  handler := none
  originalHandler := none
  responseType := none
  queueStatusCachePath := none
  threadPoolName := none
  ns := none
  logicalKey := []
  refresh := false
  refreshLocation := none
  refreshPrefix := []
  refreshTimeout := none
  proxySeparateZone := none
  proxySeparateValue := none
  proxySeparateKey := []

def mergeConf (conf prev : PurgeConf) : PurgeConf :=
  match conf.enable with
  | some _ => conf
  | none =>
    if prev.enable = some true then
      {conf with enable := prev.enable,method := prev.method,purgeAll := prev.purgeAll,access := prev.access,access6 := prev.access6}
    else {conf with enable := some false}

namespace LocConf

def mergeNamespace (prev conf : LocConf) : LocConf :=
  if conf.ns = none then {conf with ns := prev.ns,logicalKey := prev.logicalKey} else conf

def mergeRefresh (prev conf : LocConf) : LocConf :=
  let conf :=
    if (conf.purge .proxy).enable = none ∧ conf.proxySeparateZone = none ∧ conf.proxySeparateValue = none then
      {conf with
        proxySeparateZone := prev.proxySeparateZone
        proxySeparateValue := prev.proxySeparateValue
        proxySeparateKey := prev.proxySeparateKey
        refresh := prev.refresh}
    else conf
  let conf := {conf with refreshTimeout := some (conf.refreshTimeout.getD (prev.refreshTimeout.getD 10000))}
  if conf.refreshLocation = none then
    {conf with refreshLocation := prev.refreshLocation,refreshPrefix := prev.refreshPrefix}
  else conf

def refreshError (conf : LocConf) : Option MergeError :=
  if conf.refresh ∧ conf.ns = none then
    some (.logged "ngx_cache_purge: \"proxy_cache_refresh\" requires \"cache_purge_key\"")
  else if conf.refresh ∧ conf.refreshLocation = none then
    some (.logged "ngx_cache_purge: \"proxy_cache_refresh\" requires \"cache_purge_refresh_profile\"")
  else
    let timeout := conf.refreshTimeout.getD 0
    if conf.refresh ∧ (timeout = 0 ∨ timeout > 3600000) then
      some (.logged ("ngx_cache_purge: \"cache_purge_refresh_timeout\" " ++ toString timeout ++
        " ms is out of range, expected 1 to 3600000 ms"))
    else none

def mergeCommon (prev conf : LocConf) : LocConf :=
  {conf with
    threadPoolName := some (conf.threadPoolName.getD (prev.threadPoolName.getD defaultPool))
    responseType := some (conf.responseType.getD (prev.responseType.getD responseTypeJson))}

def wasSet (conf : LocConf) (p : PurgeProtocol) : Bool := (conf.purge p).enable = some true

def purgeSet (conf : LocConf) : Bool := conf.conf.isSome || purgeProtocols.any conf.wasSet

def directiveName : PurgeProtocol → String
  | .fastcgi => "fastcgi_cache_purge"
  | .proxy => "proxy_cache_purge"
  | .scgi => "scgi_cache_purge"
  | .uwsgi => "uwsgi_cache_purge"

def statusError (conf : LocConf) : Option MergeError :=
  if conf.queueStatusCachePath = none then none
  else if conf.conf.isSome then
    some (.logged "ngx_cache_purge: cache_purge_queue_status conflicts with a purge handler")
  else (purgeProtocols.find? conf.wasSet).map fun p =>
    .logged ("ngx_cache_purge: cache_purge_queue_status conflicts with " ++ directiveName p)

def mergedAt (prev conf : LocConf) (p : PurgeProtocol) : LocConf :=
  {conf with purge := Function.update conf.purge p (mergeConf (conf.purge p) (prev.purge p))}

def install (set_ : Bool) (prev : LocConf) (p : PurgeProtocol) (conf : LocConf) (core : CoreLoc) : LocConf × CoreLoc :=
  ({conf with
      conf := some (some (conf.purge p))
      handler := some (.purge p)
      originalHandler := if set_ || !core.noname then core.handler else prev.originalHandler},
    {core with handler := some .gate})

def tryProtocols (set_ : PurgeProtocol → Bool) (prev : LocConf) : List PurgeProtocol → LocConf → CoreLoc → LocConf × CoreLoc
  | [],conf,core =>
    ({conf with
        conf := some (conf.conf.getD (prev.conf.getD none))
        handler := conf.handler.or prev.handler
        originalHandler := conf.originalHandler.or prev.originalHandler},core)
  | p :: rest,conf,core =>
    let conf := mergedAt prev conf p
    if (conf.purge p).enable ≠ some false then install (set_ p) prev p conf core
    else tryProtocols set_ prev rest conf core

def registerPool (answers : MergeAnswers) (conf : LocConf) : Option MergeError :=
  if (answers.backgroundPurge ∨ conf.ns ≠ none) ∧ conf.conf ≠ some none ∧ !answers.poolAdded then some .failed else none

def statusTakes (prev conf : LocConf) (core : CoreLoc) : Bool :=
  core.handler = some .queueStatus || (core.handler = none && prev.queueStatusCachePath.isSome && !conf.purgeSet)

def refreshTakes (conf : LocConf) (core : CoreLoc) : Bool :=
  conf.refresh && (core.handler = none || core.handler = some .refresh)

def mergeLocConf (answers : MergeAnswers) (prev conf : LocConf) (core : CoreLoc) :
    Except MergeError (LocConf × CoreLoc × Bool) :=
  let conf := mergeRefresh prev (mergeNamespace prev conf)
  match conf.refreshError with
  | some error => .error error
  | none =>
    let conf := mergeCommon prev conf
    match conf.statusError with
    | some error => .error error
    | none =>
      if statusTakes prev conf core then
        if conf.queueStatusCachePath = none then
          if answers.pushed then
            .ok ({conf with queueStatusCachePath := prev.queueStatusCachePath},{core with handler := some .queueStatus},true)
          else .error .failed
        else .ok (conf,{core with handler := some .queueStatus},false)
      else
        let merged :=
          if refreshTakes conf core then
            let purge := Function.update conf.purge .proxy {conf.purge .proxy with enable := some false}
            ({conf with purge := purge,conf := some (some (purge .proxy))},{core with handler := some .refresh})
          else tryProtocols conf.wasSet prev purgeProtocols conf core
        match registerPool answers merged.1 with
        | some error => .error error
        | none => .ok (merged.1,merged.2,false)

end LocConf

structure Context where
  conf : LocConf
  core : CoreLoc
  answers : MergeAnswers

def mergedConf (root : LocConf) : List Context → Except MergeError LocConf
  | [] => .ok root
  | c :: outer => (mergedConf root outer).bind fun prev => (LocConf.mergeLocConf c.answers prev c.conf c.core).map Prod.fst

section settings
variable (root : LocConf)

def statusShown : List Context → Bool
  | [] => root.queueStatusCachePath.isSome
  | c :: outer => c.conf.queueStatusCachePath.isSome ||
      ((c.core.handler = some .queueStatus || (c.core.handler = none && !c.conf.purgeSet)) && statusShown outer)

def statusTaken (c : Context) (outer : List Context) : Bool :=
  c.core.handler = some .queueStatus || (c.core.handler = none && statusShown root outer && !c.conf.purgeSet)

def refreshes : List Context → Bool
  | [] => root.refresh
  | c :: outer =>
    if (c.conf.purge .proxy).enable = none ∧ c.conf.proxySeparateZone = none ∧ c.conf.proxySeparateValue = none then
      refreshes outer
    else c.conf.refresh

def refreshTaken (c : Context) (outer : List Context) : Bool :=
  refreshes root (c :: outer) && (c.core.handler = none || c.core.handler = some .refresh)

def handsDown : List Context → PurgeProtocol → Bool
  | [],p => (root.purge p).enable = some true
  | c :: outer,p =>
    let own := (c.conf.purge p).enable
    if statusTaken root c outer then own = some true
    else if refreshTaken root c outer then p ≠ .proxy && own = some true
    else own = some true || (own = none && handsDown outer p && p.tried.all fun e =>
      (c.conf.purge e).enable ≠ some true && !((c.conf.purge e).enable = none && handsDown outer e))

end settings

structure Governs (p : PurgeProtocol) (own : PurgeConf) (conf : LocConf) (core : CoreLoc) : Prop where
  handler : conf.handler = some (.purge p)
  gate : core.handler = some .gate
  settings : conf.conf = some (some own)

def Takes (prev conf : LocConf) (p : PurgeProtocol) : Prop :=
  (conf.purge p).enable = some true ∨ (conf.purge p).enable = none ∧ (prev.purge p).enable = some true

theorem mergedTakes (prev conf : LocConf) (p : PurgeProtocol) :
    (mergeConf (conf.purge p) (prev.purge p)).enable ≠ some false ↔ Takes prev conf p := by
  unfold mergeConf Takes
  cases own : (conf.purge p).enable with
  | some value => cases value <;> simp [own]
  | none =>
    simp only
    split
    · rename_i handed
      simp [handed]
    · rename_i none_
      simp [none_]

theorem mergedOn (prev conf : LocConf) (p : PurgeProtocol) :
    (mergeConf (conf.purge p) (prev.purge p)).enable = some true ↔ Takes prev conf p := by
  rw [← mergedTakes]
  unfold mergeConf
  cases own : (conf.purge p).enable with
  | some value => cases value <;> simp [own]
  | none =>
    simp only
    split
    · rename_i handed
      simp [handed]
    · simp

namespace LocConf
variable {set_ : PurgeProtocol → Bool} {prev conf : LocConf} {core : CoreLoc} {p e : PurgeProtocol}
  {rest pre post : List PurgeProtocol}

theorem mergedSelf : (mergedAt prev conf p).purge p = mergeConf (conf.purge p) (prev.purge p) := Function.update_self _ _ _

theorem mergedOther (differs : e ≠ p) : (mergedAt prev conf p).purge e = conf.purge e := Function.update_of_ne differs _ _

theorem mergedTakesOther (differs : e ≠ p) : Takes prev (mergedAt prev conf p) e ↔ Takes prev conf e := by
  rw [Takes,Takes,mergedOther differs]

theorem triedInstalls (takes : Takes prev conf p) : tryProtocols set_ prev (p :: rest) conf core =
    install (set_ p) prev p (mergedAt prev conf p) core := by
  rw [tryProtocols]
  refine if_pos ?_
  rw [mergedSelf]
  exact (mergedTakes prev conf p).mpr takes

theorem triedSkips (skips : ¬ Takes prev conf p) : tryProtocols set_ prev (p :: rest) conf core =
    tryProtocols set_ prev rest (mergedAt prev conf p) core := by
  rw [tryProtocols]
  refine if_neg ?_
  rw [mergedSelf]
  exact mt (mergedTakes prev conf p).mp skips

theorem triedOther (untried : p ∉ rest) : ((tryProtocols set_ prev rest conf core).1.purge p) = conf.purge p := by
  induction rest generalizing conf with
  | nil => rfl
  | cons e rest ih =>
    rw [List.mem_cons,not_or] at untried
    obtain ⟨differs,later⟩ := untried
    by_cases takes : Takes prev conf e
    · rw [triedInstalls takes]
      exact mergedOther differs
    · rw [triedSkips takes,ih later,mergedOther differs]

theorem triedKeeps : (tryProtocols set_ prev rest conf core).1.queueStatusCachePath = conf.queueStatusCachePath ∧
    (tryProtocols set_ prev rest conf core).1.refresh = conf.refresh := by
  induction rest generalizing conf with
  | nil => exact ⟨rfl,rfl⟩
  | cons e rest ih =>
    by_cases takes : Takes prev conf e
    · rw [triedInstalls takes]
      exact ⟨rfl,rfl⟩
    · rw [triedSkips takes]
      exact ih

theorem triedEnabled (each : (pre ++ p :: post).Nodup) :
    ((tryProtocols set_ prev (pre ++ p :: post) conf core).1.purge p).enable = some true ↔
      (conf.purge p).enable = some true ∨
      ((conf.purge p).enable = none ∧ (prev.purge p).enable = some true ∧ ∀ e ∈ pre, ¬ Takes prev conf e) := by
  induction pre generalizing conf with
  | nil =>
    have result : ((tryProtocols set_ prev (p :: post) conf core).1.purge p) = mergeConf (conf.purge p) (prev.purge p) := by
      by_cases takes : Takes prev conf p
      · rw [triedInstalls takes]
        exact mergedSelf
      · rw [triedSkips takes,triedOther (List.nodup_cons.mp each).1]
        exact mergedSelf
    rw [List.nil_append,result,mergedOn]
    simp [Takes]
  | cons e pre ih =>
    obtain ⟨fresh,each⟩ := List.nodup_cons.mp each
    have differs : p ≠ e := by
      rintro rfl
      exact fresh (List.mem_append_right _ List.mem_cons_self)
    by_cases takes : Takes prev conf e
    · rw [List.cons_append,triedInstalls takes]
      have kept : (install (set_ e) prev e (mergedAt prev conf e) core).1.purge p = conf.purge p := mergedOther differs
      rw [kept]
      refine ⟨.inl,fun holds => holds.resolve_right ?_⟩
      rintro ⟨_,_,none_⟩
      exact none_ e List.mem_cons_self takes
    · rw [List.cons_append,triedSkips takes,ih each,mergedOther differs,List.forall_mem_cons]
      have others : (∀ a ∈ pre, ¬ Takes prev (mergedAt prev conf e) a) ↔ ∀ a ∈ pre, ¬ Takes prev conf a := by
        refine forall₂_congr fun a member => not_congr (mergedTakesOther ?_)
        rintro rfl
        exact fresh (List.mem_append_left _ member)
      rw [others]
      tauto

theorem triedGoverns (each : (pre ++ p :: post).Nodup) (explicit : (conf.purge p).enable = some true) :
    Governs p (conf.purge p) (tryProtocols set_ prev (pre ++ p :: post) conf core).1
      (tryProtocols set_ prev (pre ++ p :: post) conf core).2 ↔ ∀ e ∈ pre, ¬ Takes prev conf e := by
  induction pre generalizing conf with
  | nil =>
    rw [List.nil_append,triedInstalls (.inl explicit)]
    refine iff_of_true ⟨rfl,rfl,?_⟩ (by simp)
    have own : (mergedAt prev conf p).purge p = conf.purge p := by
      refine mergedSelf.trans ?_
      rw [mergeConf,explicit]
    exact congrArg (fun pc => some (some pc)) own
  | cons e pre ih =>
    obtain ⟨fresh,each⟩ := List.nodup_cons.mp each
    have differs : p ≠ e := by
      rintro rfl
      exact fresh (List.mem_append_right _ List.mem_cons_self)
    rw [List.forall_mem_cons]
    by_cases takes : Takes prev conf e
    · rw [List.cons_append,triedInstalls takes]
      refine iff_of_false (fun governs => differs ?_) fun none_ => none_.1 takes
      exact (ContentHandler.purge.inj (Option.some.inj governs.handler)).symm
    · rw [List.cons_append,triedSkips takes]
      have kept : (mergedAt prev conf e).purge p = conf.purge p := mergedOther differs
      have rest := @ih (mergedAt prev conf e) each (by rwa [kept])
      rw [kept] at rest
      rw [rest]
      refine ⟨fun none_ => ⟨takes,fun a member => ?_⟩,fun none_ a member => ?_⟩
      all_goals
        have other : a ≠ e := by
          rintro rfl
          exact fresh (List.mem_append_left _ member)
      · exact mt (mergedTakesOther other).mpr (none_ a member)
      · exact mt (mergedTakesOther other).mp (none_.2 a member)

def prepared (prev conf : LocConf) : LocConf := mergeCommon prev (mergeRefresh prev (mergeNamespace prev conf))

structure Prepared (prev own base : LocConf) : Prop where
  purge : base.purge = own.purge
  conf : base.conf = own.conf
  status : base.queueStatusCachePath = own.queueStatusCachePath
  refresh : base.refresh = if (own.purge .proxy).enable = none ∧ own.proxySeparateZone = none ∧ own.proxySeparateValue = none
    then prev.refresh else own.refresh

theorem namespaceKeeps (prev conf : LocConf) : mergeNamespace prev conf =
    {conf with ns := (mergeNamespace prev conf).ns,logicalKey := (mergeNamespace prev conf).logicalKey} := by
  unfold mergeNamespace
  split <;> rfl

theorem preparedKeeps (prev conf : LocConf) : Prepared prev conf (prepared prev conf) := by
  unfold prepared mergeCommon
  rw [namespaceKeeps]
  by_cases separate : (conf.purge .proxy).enable = none ∧ conf.proxySeparateZone = none ∧ conf.proxySeparateValue = none
  · by_cases located : conf.refreshLocation = none
    · constructor <;> simp [mergeRefresh,separate,located]
    · constructor <;> simp [mergeRefresh,separate,located]
  · by_cases located : conf.refreshLocation = none
    · constructor <;> simp [mergeRefresh,separate,located]
    · constructor <;> simp [mergeRefresh,separate,located]

theorem preparedSet (prev conf : LocConf) : (prepared prev conf).purgeSet = conf.purgeSet := by
  have kept := preparedKeeps prev conf
  have each : (prepared prev conf).wasSet = conf.wasSet := by
    funext p
    rw [wasSet,kept.purge,wasSet]
  rw [purgeSet,kept.conf,each,purgeSet]

theorem mergeCases {answers : MergeAnswers} {merged : LocConf × CoreLoc × Bool}
    (succeeds : mergeLocConf answers prev conf core = .ok merged) :
    let base := prepared prev conf
    (statusTakes prev base core = true ∧ merged.1 = {base with queueStatusCachePath := merged.1.queueStatusCachePath} ∧
      merged.1.queueStatusCachePath = base.queueStatusCachePath.or prev.queueStatusCachePath) ∨
    (statusTakes prev base core = false ∧ refreshTakes base core = true ∧
      merged.1 = {base with
        purge := Function.update base.purge .proxy {base.purge .proxy with enable := some false}
        conf := merged.1.conf} ∧
      merged.2.1.handler = some .refresh) ∨
    (statusTakes prev base core = false ∧ refreshTakes base core = false ∧
      (merged.1,merged.2.1) = tryProtocols base.wasSet prev purgeProtocols base core) := by
  intro base
  unfold mergeLocConf at succeeds
  simp only at succeeds
  split at succeeds
  · contradiction
  · split at succeeds
    · contradiction
    · split at succeeds
      · rename_i status
        refine .inl ⟨status,?_⟩
        split at succeeds
        · rename_i unnamed
          split at succeeds
          · cases succeeds
            exact ⟨rfl,by rw [show base.queueStatusCachePath = none from unnamed]; rfl⟩
          · contradiction
        · rename_i named
          cases succeeds
          obtain ⟨path,here⟩ := Option.ne_none_iff_exists'.mp named
          refine ⟨rfl,?_⟩
          rw [show base.queueStatusCachePath = some path from here]
          exact here
      · rename_i status
        have status := Bool.not_eq_true _ ▸ status
        right
        split at succeeds
        · contradiction
        · cases succeeds
          cases refresh : refreshTakes base core with
          | true =>
            refine .inl ⟨status,rfl,?_⟩
            change refreshTakes (mergeCommon prev (mergeRefresh prev (mergeNamespace prev conf))) core = true at refresh
            simp only [refresh,if_true]
            exact ⟨rfl,trivial⟩
          | false =>
            refine .inr ⟨status,rfl,?_⟩
            change refreshTakes (mergeCommon prev (mergeRefresh prev (mergeNamespace prev conf))) core = false at refresh
            simp only [refresh,Bool.false_eq_true,if_false]
            rfl

end LocConf

section chain
variable {root : LocConf} {outer : List Context}

theorem triedOrder (p : PurgeProtocol) : ∃ post, purgeProtocols = p.tried ++ p :: post := by
  cases p <;> exact ⟨_,rfl⟩

theorem triedOnce {p : PurgeProtocol} {post : List PurgeProtocol} (order : purgeProtocols = p.tried ++ p :: post) :
    (p.tried ++ p :: post).Nodup := by
  rw [← order]
  decide

structure HandedDown (root : LocConf) (outer : List Context) (merged : LocConf) : Prop where
  status : merged.queueStatusCachePath.isSome = statusShown root outer
  refresh : merged.refresh = refreshes root outer
  purge : ∀ p, (merged.purge p).enable = some true ↔ handsDown root outer p = true

open LocConf

theorem takesHanded {parent conf : LocConf} (handed : HandedDown root outer parent) (p : PurgeProtocol) :
    Takes parent conf p ↔
      (conf.purge p).enable = some true ∨ (conf.purge p).enable = none ∧ handsDown root outer p = true := by
  rw [Takes,handed.purge]

theorem statusHanded {parent : LocConf} {c : Context} (handed : HandedDown root outer parent) :
    statusTakes parent (prepared parent c.conf) c.core = statusTaken root c outer := by
  rw [statusTakes,preparedSet,handed.status,statusTaken]

theorem refreshHanded {parent : LocConf} {c : Context} (handed : HandedDown root outer parent) :
    (prepared parent c.conf).refresh = refreshes root (c :: outer) := by
  rw [(preparedKeeps parent c.conf).refresh,handed.refresh,refreshes]

theorem refreshTakesHanded {parent : LocConf} {c : Context} (handed : HandedDown root outer parent) :
    refreshTakes (prepared parent c.conf) c.core = refreshTaken root c outer := by
  rw [refreshTakes,refreshHanded handed,refreshTaken]

theorem shownTaken (c : Context) : statusShown root (c :: outer) = (c.conf.queueStatusCachePath.isSome ||
    (statusTaken root c outer && statusShown root outer)) := by
  rw [statusShown,statusTaken]
  cases statusShown root outer <;> simp

theorem handedStep {parent : LocConf} {c : Context} {merged : LocConf × CoreLoc × Bool} (handed : HandedDown root outer parent)
    (succeeds : mergeLocConf c.answers parent c.conf c.core = .ok merged) : HandedDown root (c :: outer) merged.1 := by
  have kept := preparedKeeps parent c.conf
  have refresh := @refreshHanded root outer parent c handed
  rcases mergeCases succeeds with ⟨status,same,path⟩ | ⟨status,refreshed,same,_⟩ | ⟨status,refreshed,tried⟩
  all_goals rw [statusHanded handed] at status
  · refine ⟨?_,?_,fun p => ?_⟩
    · rw [path,kept.status,shownTaken,status,Option.isSome_or,handed.status,Bool.true_and]
    · rw [same]
      exact refresh
    · rw [same]
      simp only [kept.purge]
      simp [handsDown,status]
  · rw [refreshTakesHanded handed] at refreshed
    refine ⟨?_,?_,fun p => ?_⟩
    · rw [same,shownTaken,status,Bool.false_and,Bool.or_false]
      exact congrArg Option.isSome kept.status
    · rw [same]
      exact refresh
    · rw [same]
      simp only [kept.purge]
      by_cases proxy : p = .proxy
      · subst proxy
        simp [handsDown,status,refreshed]
      · simp [handsDown,status,refreshed,proxy]
  · rw [refreshTakesHanded handed] at refreshed
    have own := congrArg Prod.fst tried
    simp only at own
    rw [own]
    refine ⟨?_,?_,fun p => ?_⟩
    · rw [triedKeeps.1,kept.status,shownTaken,status,Bool.false_and,Bool.or_false]
    · rw [triedKeeps.2]
      exact refresh
    · obtain ⟨post,order⟩ := triedOrder p
      rw [order,triedEnabled (triedOnce order),handed.purge]
      have each : (∀ e ∈ p.tried, ¬ Takes parent (prepared parent c.conf) e) ↔ ∀ e ∈ p.tried,
          ¬ ((c.conf.purge e).enable = some true ∨ (c.conf.purge e).enable = none ∧ handsDown root outer e = true) := by
        refine forall₂_congr fun e _ => not_congr ?_
        rw [takesHanded handed,kept.purge]
      rw [each,kept.purge]
      simp [handsDown,status,refreshed,not_or,and_assoc,imp_iff_not_or]

theorem handedChain {parent : LocConf} (merges : mergedConf root outer = .ok parent) : HandedDown root outer parent := by
  induction outer generalizing parent with
  | nil =>
    cases merges
    exact ⟨rfl,rfl,fun p => by simp [handsDown]⟩
  | cons c outer ih =>
    rw [mergedConf] at merges
    cases above : mergedConf root outer with
    | error e =>
      rw [above] at merges
      contradiction
    | ok prev =>
      rw [above] at merges
      change (mergeLocConf c.answers prev c.conf c.core).map Prod.fst = .ok parent at merges
      cases here : mergeLocConf c.answers prev c.conf c.core with
      | error e =>
        rw [here] at merges
        contradiction
      | ok merged =>
        rw [here] at merges
        cases merges
        exact handedStep (ih above) here

end chain

/- An explicit directive governs the location exactly when no protocol that is tried
before it, and that the location does not set, is handed down by the contexts around
it, and the location is no REFRESH location. -/
theorem explicitGoverns (root : LocConf) (outer : List Context) (location : Context) (parent : LocConf)
    (merges : mergedConf root outer = .ok parent) (merged : LocConf × CoreLoc × Bool)
    (succeeds : LocConf.mergeLocConf location.answers parent location.conf location.core = .ok merged) (p : PurgeProtocol)
    (explicit : (location.conf.purge p).enable = some true)
    (only : ∀ e, e ≠ p → (location.conf.purge e).enable ≠ some true)
    (noStatus : location.core.handler ≠ some .queueStatus) :
    Governs p (location.conf.purge p) merged.1 merged.2.1 ↔
      (∀ e ∈ p.tried, (location.conf.purge e).enable = none → handsDown root outer e = false) ∧
      refreshTaken root location outer = false := by
  have handed := handedChain merges
  have kept := LocConf.preparedKeeps parent location.conf
  have set_ : location.conf.purgeSet = true := by
    refine Bool.or_eq_true_iff.mpr (.inr (List.any_eq_true.mpr ⟨p,?_,?_⟩))
    · cases p <;> decide
    · exact decide_eq_true explicit
  rcases LocConf.mergeCases succeeds with ⟨status,_⟩ | ⟨_,refreshed,_,gate⟩ | ⟨_,refreshed,tried⟩
  · rw [statusHanded handed,statusTaken,set_] at status
    simp [noStatus] at status
  · rw [refreshTakesHanded handed] at refreshed
    refine iff_of_false (fun governs => ?_) fun holds => ?_
    · rw [governs.gate] at gate
      contradiction
    · rw [holds.2] at refreshed
      contradiction
  · rw [refreshTakesHanded handed] at refreshed
    obtain ⟨post,order⟩ := triedOrder p
    have own := congrArg Prod.fst tried
    have core := congrArg Prod.snd tried
    simp only at own core
    rw [own,core,order,← kept.purge,LocConf.triedGoverns (triedOnce order) (by rw [kept.purge]; exact explicit),refreshed]
    refine ⟨fun none_ => ⟨fun e before unset => ?_,rfl⟩,fun holds e before takes => ?_⟩
    · rw [← Bool.not_eq_true]
      intro down
      refine none_ e before ((takesHanded handed e).mpr (.inr ⟨?_,down⟩))
      rw [kept.purge] at unset ⊢
      exact unset
    · rcases (takesHanded handed e).mp takes with set_ | ⟨unset,down⟩
      · rw [kept.purge] at set_
        refine only e ?_ set_
        rintro rfl
        have each := triedOnce order
        exact absurd before fun member => (List.disjoint_of_nodup_append each) member List.mem_cons_self
      · rw [holds.1 e before unset] at down
        contradiction

def Context.explicit (p : PurgeProtocol) (own : PurgeConf) (handler : Option ContentHandler) : Context where
  conf := {createLocConf with purge := Function.update createLocConf.purge p own}
  core := ⟨handler,false⟩
  answers := ⟨false,true,true⟩

def fromAll : PurgeConf := ⟨some true,[80,85,82,71,69],false,none,none⟩

def fromLocal : PurgeConf := ⟨some true,[80,85,82,71,69],false,some [⟨#v[255,255,255,255],#v[127,0,0,1]⟩],none⟩

theorem explicitGovernsLocal :
    let server := Context.explicit .uwsgi fromAll none
    let location := Context.explicit .proxy fromLocal (some (.other 0))
    ∃ parent merged, mergedConf createLocConf [server] = .ok parent ∧
      LocConf.mergeLocConf location.answers parent location.conf location.core = .ok merged ∧
      Governs .proxy fromLocal merged.1 merged.2.1 := by
  intro server location
  obtain ⟨parent,merges⟩ : ∃ parent, mergedConf createLocConf [server] = .ok parent := ⟨_,rfl⟩
  obtain ⟨merged,succeeds⟩ : ∃ merged, LocConf.mergeLocConf location.answers parent location.conf location.core = .ok merged := by
    cases merges
    exact ⟨_,rfl⟩
  refine ⟨parent,merged,merges,succeeds,?_⟩
  refine (explicitGoverns createLocConf [server] location parent merges merged succeeds .proxy rfl ?_ (by decide)).mpr ?_
  · intro e differs
    cases e <;> first | contradiction | decide
  · exact ⟨by decide,by decide⟩

theorem explicitOverridden :
    let server := Context.explicit .fastcgi fromAll none
    let location := Context.explicit .proxy fromLocal (some (.other 0))
    (location.conf.purge .proxy).enable = some true ∧
    (∀ e, e ≠ .proxy → (location.conf.purge e).enable ≠ some true) ∧
    ∃ parent merged, mergedConf createLocConf [server] = .ok parent ∧
      LocConf.mergeLocConf location.answers parent location.conf location.core = .ok merged ∧
      ¬ Governs .proxy fromLocal merged.1 merged.2.1 ∧
      merged.1.handler = some (.purge .fastcgi) ∧ merged.1.conf = some (some fromAll) := by
  intro server location
  refine ⟨rfl,fun e differs => ?_,_,_,rfl,rfl,fun governs => ?_,rfl,rfl⟩
  · cases e <;> first | contradiction | decide
  · exact absurd governs.handler (by decide)

end CachePurge
