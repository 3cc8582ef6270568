import CachePurge.GenerationVersions
import CachePurge.Response
import Mathlib.Data.List.Nodup

/-! The namespaces of a configuration: the directive cache_purge_namespace, the check that
a new cycle removes none of the old one, and ngx_http_cache_purge_generation_init, which
attaches each to its shared state or creates it under a new marker. The core keeps a zone
of the old cycle that has the same name, tag and size. -/
namespace CachePurge

/- What a cycle holds of ngx_http_cache_purge_namespace_t; the zone is named after it. -/
structure Space where
  name : Name
  size : Nat
  statePath : Bytes
  deriving DecidableEq, Repr

structure Shared where
  version : Nat
  statePath : Bytes
  birth : Nat
  deriving DecidableEq, Repr

structure Birth where
  name : Name
  statePath : Bytes
  epoch : Epoch
  deriving DecidableEq, Repr

structure Bound where
  space : Space
  shared : Shared
  deriving DecidableEq, Repr

structure CycleZone where
  ours : Bool
  name : Bytes
  size : Nat
  deriving DecidableEq, Repr

inductive OtherZone where
  | queue (size : Nat)
  | foreign (name : Bytes) (size : Nat)
  deriving DecidableEq, Repr

def OtherZone.zone : OtherZone → CycleZone
  | .queue size => ⟨true,text "cache_purge_queue",size⟩
  | .foreign name size => ⟨false,name,size⟩

def zonePrefix : Bytes := text "cache_purge_namespace:"

def namespaceZone (name : Bytes) : Bytes := zonePrefix ++ name

structure Cycle where
  spaces : List Bound
  others : List OtherZone
  deriving DecidableEq, Repr

def Cycle.zones (cycle : Cycle) : List CycleZone :=
  cycle.others.map OtherZone.zone ++
    cycle.spaces.map fun b => ⟨true,namespaceZone b.space.name.bytes,b.space.size⟩

inductive NamespaceError where
  | invalidSize (size name : Bytes)
  | shape (name : Bytes) (size pagesize : Nat)
  | illegal (name : Bytes)
  | exhausted
  | sizeChange (name : Bytes) (old new : Nat)
  | refused
  | duplicate (name : Bytes)
  | removed (zone : Bytes)
  | noState (name : Bytes)
  | version (name : Bytes) (version : Nat)
  | pathChange (name old new : Bytes)
  | marker
  | elsewhere
  deriving DecidableEq, Repr

def NamespaceError.message : NamespaceError → Option Bytes
  | .invalidSize size name => some (text "ngx_cache_purge: invalid namespace size \"" ++ size ++
      text "\" for namespace \"" ++ name ++ text "\"")
  | .shape name size pagesize => some (text "ngx_cache_purge: namespace \"" ++ name ++
      text "\" has name length " ++ decimal name.length ++ text " and shared memory size " ++ decimal size ++
      text " bytes; expected 1 to 32 name bytes and at least " ++ decimal (8 * pagesize) ++ text " shared bytes")
  | .illegal name => some (text "ngx_cache_purge: invalid namespace name \"" ++ name ++
      text "\"; expected ASCII letters, digits, \"_\" or \"-\"")
  | .sizeChange name old new => some (text "ngx_cache_purge: namespace \"" ++ name ++
      text "\" changes shared memory size from " ++ decimal old ++ text " to " ++ decimal new ++
      text " bytes; restart nginx")
  | .duplicate name => some (text "ngx_cache_purge: duplicate namespace \"" ++ name ++ text "\"")
  | .removed zone => some (text "ngx_cache_purge: removing namespace shared zone \"" ++ zone ++
      text "\" requires a full restart")
  | .noState name => some (text "ngx_cache_purge: namespace \"" ++ name ++
      text "\" has no initialized shared state; restart nginx")
  | .version name found => some (text "ngx_cache_purge: namespace \"" ++ name ++
      text "\" has shared state version " ++ decimal found ++ text ", expected 1; restart nginx")
  | .pathChange name old new => some (text "ngx_cache_purge: namespace \"" ++ name ++
      text "\" changes state path from \"" ++ old ++ text "\" to \"" ++ new ++ text "\"; restart nginx")
  | .exhausted | .refused | .marker | .elsewhere => none

def legalName (name : Bytes) : Option Name :=
  if h : name.length ≠ 0 ∧ name.length ≤ 32 ∧ name.all nameByte = true then some ⟨name,h.1,h.2.1,h.2.2⟩
  else none

/- One cache_purge_namespace directive with the answers of the core to it: ngx_parse_size of
its second argument, the pool allocations, ngx_conf_full_name and ngx_add_path of its third,
ngx_shared_memory_add and ngx_array_push. -/
structure NamespaceDirective where
  name : Bytes
  size : Bytes
  parsed : Option Nat
  records : Bool
  fullName : Option Bytes
  zoneName : Bool
  zone : Bool
  pushed : Bool
  deriving DecidableEq, Repr

section directive
variable (pagesize : Nat) (old : List CycleZone)

/- ngx_http_cache_purge_namespace_create. A zone that the cycle has already is returned by
ngx_shared_memory_add if the sizes agree, with the namespace that was declared first. -/
def namespaceCreate (spaces : List Space) (d : NamespaceDirective) (size : Nat) : Except NamespaceError Space :=
  if d.name.length = 0 ∨ 32 < d.name.length ∨ size < 8 * pagesize then .error (.shape d.name size pagesize)
  else match legalName d.name with
  | none => .error (.illegal d.name)
  | some name =>
    if !d.records then .error .exhausted
    else match d.fullName with
    | none => .error .exhausted
    | some path =>
      if !d.zoneName then .error .exhausted
      else match old.find? fun zone => zone.ours && zone.name == namespaceZone d.name && zone.size != size with
      | some zone => .error (.sizeChange d.name zone.size size)
      | none =>
        if !d.zone || spaces.any fun other => other.name == name && other.size != size then .error .refused
        else if spaces.any fun other => other.name == name then .error (.duplicate d.name)
        else .ok ⟨name,size,path⟩

def namespaceConf (spaces : List Space) (d : NamespaceDirective) : Except NamespaceError (List Space) :=
  match d.parsed with
  | none => .error (.invalidSize d.size d.name)
  | some size => match namespaceCreate pagesize old spaces d size with
    | .error e => .error e
    | .ok created => if !d.pushed then .error .exhausted else .ok (spaces ++ [created])

def declareSpaces : List Space → List NamespaceDirective → Except NamespaceError (List Space)
  | spaces, [] => .ok spaces
  | spaces, d :: rest => match namespaceConf pagesize old spaces d with
    | .error e => .error e
    | .ok spaces => declareSpaces spaces rest

end directive

def removedZone (old : List CycleZone) (spaces : List Space) : Option CycleZone :=
  old.find? fun zone => zone.ours && zonePrefix.length < zone.name.length && zonePrefix.isPrefixOf zone.name &&
    !spaces.any fun s => namespaceZone s.name.bytes == zone.name

/- The outcome of ngx_slab_calloc, and the number of the file ngx_create_temp_file made. -/
structure ZoneAnswers where
  slab : Bool
  marker : Option Epoch
  deriving DecidableEq, Repr

def generationAttach (space : Space) : Option Shared → Except NamespaceError Shared
  | none => .error (.noState space.name.bytes)
  | some state =>
    if state.version ≠ 1 then .error (.version space.name.bytes state.version)
    else if state.statePath ≠ space.statePath then
      .error (.pathChange space.name.bytes state.statePath space.statePath)
    else .ok state

def generationCreate (births : List Birth) (space : Space) (answers : ZoneAnswers) :
    Except NamespaceError Shared × List Birth :=
  if !answers.slab then (.error .exhausted,births)
  else match answers.marker with
  | none => (.error .marker,births)
  | some epoch =>
    if births.any fun b => b.statePath == space.statePath && b.epoch == epoch then (.error .marker,births)
    else (.ok ⟨1,space.statePath,births.length⟩,births ++ [⟨space.name,space.statePath,epoch⟩])

def generationZoneInit (births : List Birth) (space : Space) (found : Option (Option Shared))
    (answers : ZoneAnswers) : Except NamespaceError Shared × List Birth :=
  match found with
  | some state => (generationAttach space state,births)
  | none => generationCreate births space answers

def initZones (old : List Bound) : List Space → List ZoneAnswers → List Birth →
    Except NamespaceError (List Bound) × List Birth
  | [], _, births => (.ok [],births)
  | space :: rest, answers, births =>
    let found := old.find? fun b => b.space.name == space.name && b.space.size == space.size
    match generationZoneInit births space (found.map fun b => some b.shared) (answers.headD ⟨false,none⟩) with
    | (.error e,births) => (.error e,births)
    | (.ok shared,births) => match initZones old rest answers.tail births with
      | (.error e,births) => (.error e,births)
      | (.ok bounds,births) => (.ok (⟨space,shared⟩ :: bounds),births)

structure Configuration where
  directives : List NamespaceDirective
  others : List OtherZone
  zones : List ZoneAnswers
  accepted : Bool
  deriving DecidableEq, Repr

def siteSetup (epoch : Epoch) : Configuration where
  directives := [⟨siteName.bytes,text "64k",some 65536,true,some (text "/state"),true,true,true⟩]
  others := []
  zones := [⟨true,some epoch⟩]
  accepted := true

def configure (pagesize : Nat) (births : List Birth) (old : Option Cycle) (conf : Configuration) :
    Except NamespaceError Cycle × List Birth :=
  let zones := (old.map Cycle.zones).getD []
  match declareSpaces pagesize zones [] conf.directives with
  | .error e => (.error e,births)
  | .ok spaces => match removedZone zones spaces with
    | some zone => (.error (.removed zone.name),births)
    | none => match initZones ((old.map Cycle.spaces).getD []) spaces conf.zones births with
      | (.error e,births) => (.error e,births)
      | (.ok bounds,births) =>
        if conf.accepted then (.ok ⟨bounds,conf.others⟩,births) else (.error .elsewhere,births)

theorem legalNameOf {name : Bytes} {n : Name} : legalName name = some n ↔ n.bytes = name := by
  unfold legalName
  split
  · rename_i legal
    constructor
    · intro same
      cases Option.some.inj same
      rfl
    · rintro rfl
      rfl
  · rename_i illegal
    refine ⟨nofun,?_⟩
    rintro rfl
    exact absurd ⟨n.nonempty,n.short,n.legal⟩ illegal

theorem nameEq {n n' : Name} (same : n.bytes = n'.bytes) : n = n' := by
  cases n
  cases n'
  simpa using same

theorem zoneInjective {name name' : Bytes} : namespaceZone name = namespaceZone name' ↔ name = name' :=
  List.append_right_inj _

structure Asks (pagesize : Nat) (d : NamespaceDirective) (s : Space) : Prop where
  named : s.name.bytes = d.name
  sized : d.parsed = some s.size
  located : d.fullName = some s.statePath
  enough : 8 * pagesize ≤ s.size
  granted : d.records = true ∧ d.zoneName = true ∧ d.zone = true ∧ d.pushed = true

def KeepsSize (old : List CycleZone) (s : Space) : Prop :=
  ∀ zone ∈ old, zone.ours = true → zone.name = namespaceZone s.name.bytes → zone.size = s.size

theorem undeclared {spaces : List Space} {name : Name} :
    (spaces.any fun other => other.name == name) = false ↔ name ∉ spaces.map Space.name := by
  simp

section directive
variable {pagesize : Nat} {old : List CycleZone}

theorem sizeFound {s : Space} : (old.find? fun zone => zone.ours && zone.name == namespaceZone s.name.bytes &&
    zone.size != s.size) = none ↔ KeepsSize old s := by
  simp [KeepsSize]

theorem createdSpace {spaces : List Space} {d : NamespaceDirective} {size : Nat} {s : Space} :
    namespaceCreate pagesize old spaces d size = .ok s ↔ s.name.bytes = d.name ∧ size = s.size ∧
      d.fullName = some s.statePath ∧ 8 * pagesize ≤ s.size ∧ d.records = true ∧ d.zoneName = true ∧
      d.zone = true ∧ KeepsSize old s ∧ s.name ∉ spaces.map Space.name := by
  unfold namespaceCreate
  constructor
  · intro ok
    split at ok <;> try contradiction
    rename_i shaped
    split at ok <;> try contradiction
    rename_i name named
    split at ok <;> try contradiction
    rename_i records
    split at ok <;> try contradiction
    rename_i path located
    split at ok <;> try contradiction
    rename_i room
    split at ok <;> try contradiction
    rename_i kept
    split at ok <;> try contradiction
    rename_i zone
    split at ok <;> try contradiction
    rename_i fresh
    cases Except.ok.inj ok
    simp only [not_or,not_lt] at shaped
    simp only [Bool.or_eq_true,not_or] at zone
    have spelled := legalNameOf.mp named
    refine ⟨spelled,rfl,located,shaped.2.2,by simpa using records,by simpa using room,by simpa using zone.1,?_,?_⟩
    · rw [← spelled] at kept
      exact sizeFound.mp kept
    · exact undeclared.mp (by simpa only [Bool.not_eq_true] using fresh)
  · rintro ⟨named,rfl,located,enough,records,room,zone,kept,fresh⟩
    have shaped : ¬ (d.name.length = 0 ∨ 32 < d.name.length ∨ s.size < 8 * pagesize) := by
      have nonempty := s.name.nonempty
      have short := s.name.short
      rw [named] at nonempty short
      omega
    have absent := undeclared.mpr fresh
    have apart : (spaces.any fun other => other.name == s.name && other.size != s.size) = false := by
      rw [List.any_eq_false] at absent ⊢
      intro other member
      simp [absent other member]
    rw [← named] at shaped ⊢
    rw [if_neg shaped]
    simp [legalNameOf.mpr rfl,records,located,room,sizeFound.mpr kept,zone,apart,absent]

theorem confDeclares {spaces spaces' : List Space} {d : NamespaceDirective} :
    namespaceConf pagesize old spaces d = .ok spaces' ↔
      ∃ s, Asks pagesize d s ∧ KeepsSize old s ∧ s.name ∉ spaces.map Space.name ∧ spaces' = spaces ++ [s] := by
  unfold namespaceConf
  constructor
  · intro ok
    split at ok <;> try contradiction
    rename_i size sized
    split at ok <;> try contradiction
    rename_i created made
    split at ok <;> try contradiction
    rename_i pushed
    cases Except.ok.inj ok
    obtain ⟨named,rfl,located,enough,records,room,zone,kept,fresh⟩ := createdSpace.mp made
    exact ⟨created,⟨named,sized,located,enough,records,room,zone,by simpa using pushed⟩,kept,fresh,rfl⟩
  · rintro ⟨s,asks,kept,fresh,rfl⟩
    obtain ⟨records,room,zone,pushed⟩ := asks.granted
    rw [asks.sized]
    simp only [createdSpace.mpr ⟨asks.named,rfl,asks.located,asks.enough,records,room,zone,kept,fresh⟩,pushed]
    rfl

theorem declaresSpaces {spaces spaces' : List Space} {directives : List NamespaceDirective}
    (apart : (spaces.map Space.name).Nodup) : declareSpaces pagesize old spaces directives = .ok spaces' ↔
      ∃ added, spaces' = spaces ++ added ∧ List.Forall₂ (Asks pagesize) directives added ∧
        (∀ s ∈ added, KeepsSize old s) ∧ (spaces'.map Space.name).Nodup := by
  induction directives generalizing spaces with
  | nil =>
    simp only [declareSpaces,Except.ok.injEq]
    constructor
    · rintro rfl
      exact ⟨[],by simp [apart]⟩
    · rintro ⟨added,rfl,asked,_⟩
      cases asked
      simp
  | cons d rest ih =>
    simp only [declareSpaces]
    constructor
    · intro ok
      split at ok <;> try contradiction
      rename_i next declared
      obtain ⟨s,asks,kept,fresh,rfl⟩ := confDeclares.mp declared
      have apart' : ((spaces ++ [s]).map Space.name).Nodup := by
        rw [List.map_append,List.nodup_append]
        refine ⟨apart,by simp,fun name member other last => ?_⟩
        rintro rfl
        rw [List.map_singleton,List.mem_singleton] at last
        exact fresh (last ▸ member)
      obtain ⟨added,rfl,asked,sizes,distinct⟩ := (ih apart').mp ok
      exact ⟨s :: added,by simp,.cons asks asked,by simpa using ⟨kept,sizes⟩,distinct⟩
    · rintro ⟨added,rfl,asked,sizes,distinct⟩
      cases asked with
      | @cons _ s _ added asks asked =>
        simp only [List.mem_cons,forall_eq_or_imp] at sizes
        have apart' : ((spaces ++ [s]).map Space.name).Nodup := by
          refine distinct.sublist (List.Sublist.map _ ?_)
          simp
        have fresh : s.name ∉ spaces.map Space.name := by
          rw [List.map_append,List.nodup_append] at apart'
          exact fun member => apart'.2.2 _ member _ (by simp) rfl
        rw [confDeclares.mpr ⟨s,asks,sizes.1,fresh,rfl⟩]
        exact (ih apart').mpr ⟨added,by simp,asked,sizes.2,distinct⟩

end directive

theorem cycleZones {cycle : Cycle} {zone : CycleZone} (member : zone ∈ cycle.zones)
    (ours : zone.ours = true) (named : zonePrefix <+: zone.name) :
    ∃ b ∈ cycle.spaces, zone.name = namespaceZone b.space.name.bytes ∧ zone.size = b.space.size := by
  rcases List.mem_append.mp member with other | own
  · obtain ⟨z,_,rfl⟩ := List.mem_map.mp other
    cases z with
    | queue size =>
      have apart : ¬ zonePrefix <+: text "cache_purge_queue" := by decide
      exact absurd named apart
    | foreign name size => contradiction
  · obtain ⟨b,here,rfl⟩ := List.mem_map.mp own
    exact ⟨b,here,rfl,rfl⟩

theorem spaceZone {cycle : Cycle} {b : Bound} (member : b ∈ cycle.spaces) :
    ⟨true,namespaceZone b.space.name.bytes,b.space.size⟩ ∈ cycle.zones :=
  List.mem_append_right _ (List.mem_map_of_mem (f := fun b : Bound => (⟨true,namespaceZone b.space.name.bytes,b.space.size⟩ : CycleZone)) member)

theorem keepsSizeOf {cycle : Cycle} {s : Space} :
    KeepsSize cycle.zones s ↔ ∀ b ∈ cycle.spaces, b.space.name = s.name → b.space.size = s.size := by
  constructor
  · intro kept b member same
    exact kept _ (spaceZone member) rfl (by rw [same])
  · intro kept zone member ours named
    obtain ⟨b,here,name,size⟩ := cycleZones member ours ⟨s.name.bytes,named.symm⟩
    rw [named,zoneInjective] at name
    rw [size]
    exact kept b here (nameEq name.symm)

theorem removesNone {cycle : Cycle} {spaces : List Space} : removedZone cycle.zones spaces = none ↔
    ∀ b ∈ cycle.spaces, b.space.name ∈ spaces.map Space.name := by
  unfold removedZone
  simp only [List.find?_eq_none,Bool.and_eq_true,decide_eq_true_eq,Bool.not_eq_true',not_and,
    List.any_eq_false,beq_iff_eq,not_forall,not_not,List.isPrefixOf_iff_prefix]
  constructor
  · intro all b member
    have long : zonePrefix.length < (namespaceZone b.space.name.bytes).length := by
      have nonempty := b.space.name.nonempty
      rw [namespaceZone,List.length_append]
      omega
    obtain ⟨s,declared,same⟩ := all _ (spaceZone member) ⟨⟨rfl,long⟩,⟨_,rfl⟩⟩
    exact List.mem_map.mpr ⟨s,declared,nameEq (zoneInjective.mp same)⟩
  · rintro all zone member ⟨⟨ours,_⟩,named⟩
    obtain ⟨b,here,name,_⟩ := cycleZones member ours named
    obtain ⟨s,declared,same⟩ := List.mem_map.mp (all b here)
    exact ⟨s,declared,by rw [same,name]⟩

def Distinct (births : List Birth) : Prop :=
  births.Pairwise fun a b => a.statePath = b.statePath → a.epoch ≠ b.epoch

theorem distinctBirths {births : List Birth} (distinct : Distinct births) {i j : Nat} {a b : Birth}
    (first : births[i]? = some a) (second : births[j]? = some b) (apart : i ≠ j)
    (path : a.statePath = b.statePath) : a.epoch ≠ b.epoch := by
  obtain ⟨hi,rfl⟩ := List.getElem?_eq_some_iff.mp first
  obtain ⟨hj,rfl⟩ := List.getElem?_eq_some_iff.mp second
  rcases Nat.lt_or_gt_of_ne apart with less | greater
  · exact List.pairwise_iff_getElem.mp distinct i j hi hj less path
  · exact (List.pairwise_iff_getElem.mp distinct j i hj hi greater path.symm).symm

structure Attached (space : Space) (shared : Shared) : Prop where
  version : shared.version = 1
  statePath : shared.statePath = space.statePath

theorem attaches {space : Space} {state : Option Shared} {shared : Shared} :
    generationAttach space state = .ok shared ↔ state = some shared ∧ Attached space shared := by
  unfold generationAttach
  constructor
  · intro ok
    split at ok <;> try contradiction
    rename_i state
    split at ok <;> try contradiction
    rename_i version
    split at ok <;> try contradiction
    rename_i path
    cases Except.ok.inj ok
    exact ⟨rfl,not_not.mp version,not_not.mp path⟩
  · rintro ⟨rfl,version,path⟩
    simp [version,path]

def freshMarker (births : List Birth) (space : Space) (answers : ZoneAnswers) : Option Epoch :=
  if answers.slab then answers.marker.filter fun epoch =>
    !births.any fun b => b.statePath == space.statePath && b.epoch == epoch
  else none

theorem freshMarkerOf {births : List Birth} {space : Space} {answers : ZoneAnswers} {epoch : Epoch}
    (fresh : freshMarker births space answers = some epoch) {b : Birth} (member : b ∈ births)
    (path : b.statePath = space.statePath) : b.epoch ≠ epoch := by
  unfold freshMarker at fresh
  split at fresh <;> try contradiction
  obtain ⟨_,unused⟩ := Option.filter_eq_some_iff.mp fresh
  simp only [Bool.not_eq_true',List.any_eq_false,Bool.and_eq_true,beq_iff_eq,not_and] at unused
  exact unused b member path

theorem creates (births : List Birth) (space : Space) (answers : ZoneAnswers) :
    (∃ epoch, freshMarker births space answers = some epoch ∧ generationCreate births space answers =
      (.ok ⟨1,space.statePath,births.length⟩,births ++ [⟨space.name,space.statePath,epoch⟩])) ∨
    (freshMarker births space answers = none ∧ ∃ e, generationCreate births space answers = (.error e,births)) := by
  unfold generationCreate freshMarker
  cases answers.slab with
  | false => exact .inr ⟨by simp,_,rfl⟩
  | true =>
    cases answers.marker with
    | none => exact .inr ⟨by simp,_,rfl⟩
    | some epoch =>
      cases used : births.any fun b => b.statePath == space.statePath && b.epoch == epoch with
      | false => exact .inl ⟨epoch,by simp [Option.filter,used],by simp [used]⟩
      | true => exact .inr ⟨by simp [Option.filter,used],.marker,by simp [used]⟩

structure Extends (births births' : List Birth) : Prop where
  grows : births <+: births'
  distinct : Distinct births → Distinct births'

theorem extendsRefl (births : List Birth) : Extends births births := ⟨List.prefix_rfl,id⟩

theorem extendsTrans {a b c : List Birth} (left : Extends a b) (right : Extends b c) : Extends a c :=
  ⟨left.grows.trans right.grows,fun distinct => right.distinct (left.distinct distinct)⟩

theorem extendsCreated {births : List Birth} {space : Space} {answers : ZoneAnswers} {epoch : Epoch}
    (fresh : freshMarker births space answers = some epoch) :
    Extends births (births ++ [⟨space.name,space.statePath,epoch⟩]) := by
  refine ⟨List.prefix_append ..,fun distinct => List.pairwise_append.mpr ⟨distinct,by simp,?_⟩⟩
  intro b member last here path
  cases List.mem_singleton.mp here
  exact freshMarkerOf fresh member path

theorem zoneExtends (births : List Birth) (space : Space) (found : Option (Option Shared)) (answers : ZoneAnswers) :
    Extends births (generationZoneInit births space found answers).2 := by
  cases found with
  | some state => exact extendsRefl births
  | none =>
    simp only [generationZoneInit]
    rcases creates births space answers with ⟨epoch,fresh,made⟩ | ⟨_,e,failed⟩
    · rw [made]
      exact extendsCreated fresh
    · rw [failed]
      exact extendsRefl births

theorem initExtends (old : List Bound) (spaces : List Space) (answers : List ZoneAnswers) (births : List Birth) :
    Extends births (initZones old spaces answers births).2 := by
  induction spaces generalizing answers births with
  | nil => exact extendsRefl births
  | cons space rest ih =>
    simp only [initZones]
    have first := zoneExtends births space ((old.find? fun b => b.space.name == space.name &&
      b.space.size == space.size).map fun b => some b.shared) (answers.headD ⟨false,none⟩)
    split
    · rename_i e births₁ outcome
      rwa [outcome] at first
    · rename_i shared births₁ outcome
      rw [outcome] at first
      have later := ih answers.tail births₁
      split <;> rename_i outcome' <;> rw [outcome'] at later <;> exact extendsTrans first later

theorem birthLater {births births' : List Birth} (grows : births <+: births') {n : Nat} {b : Birth}
    (born : births[n]? = some b) : births'[n]? = some b := by
  obtain ⟨rest,rfl⟩ := grows
  obtain ⟨bound,_⟩ := List.getElem?_eq_some_iff.mp born
  rw [List.getElem?_append_left bound]
  exact born

inductive SpaceSource (old : List Bound) (births births' : List Birth) (b : Bound) : Prop where
  | kept {o : Bound} (member : o ∈ old) (name : o.space.name = b.space.name)
      (size : o.space.size = b.space.size) (shared : o.shared = b.shared)
  | created {epoch : Epoch} (absent : ∀ o ∈ old, o.space.name = b.space.name → o.space.size ≠ b.space.size)
      (since : births.length ≤ b.shared.birth)
      (born : births'[b.shared.birth]? = some ⟨b.space.name,b.space.statePath,epoch⟩)

theorem sourceLater {old : List Bound} {births births₁ births' births'' : List Birth} {b : Bound}
    (front : births <+: births₁) (back : births' <+: births'') (source : SpaceSource old births₁ births' b) :
    SpaceSource old births births'' b := by
  cases source with
  | kept member name size shared => exact .kept member name size shared
  | created absent since born =>
    exact .created absent (front.length_le.trans since) (birthLater back born)

theorem initSources {old : List Bound} {spaces : List Space} {answers : List ZoneAnswers}
    {births births' : List Birth} {bounds : List Bound}
    (ok : initZones old spaces answers births = (.ok bounds,births')) :
    bounds.map Bound.space = spaces ∧ ∀ b ∈ bounds, Attached b.space b.shared ∧ SpaceSource old births births' b := by
  induction spaces generalizing answers births bounds with
  | nil =>
    simp only [initZones,Prod.mk.injEq,Except.ok.injEq] at ok
    obtain ⟨rfl,_⟩ := ok
    simp
  | cons space rest ih =>
    simp only [initZones] at ok
    split at ok <;> try simp only [Prod.mk.injEq,reduceCtorEq,false_and] at ok
    rename_i shared births₁ outcome
    split at ok <;> simp only [Prod.mk.injEq,Except.ok.injEq,reduceCtorEq,false_and] at ok
    rename_i bounds' births₂ outcome'
    obtain ⟨rfl,rfl⟩ := ok
    obtain ⟨spaces,sources⟩ := ih outcome'
    have first := zoneExtends births space ((old.find? fun b => b.space.name == space.name &&
      b.space.size == space.size).map fun b => some b.shared) (answers.headD ⟨false,none⟩)
    have later := initExtends old rest answers.tail births₁
    rw [outcome] at first
    rw [outcome'] at later
    refine ⟨by simp [spaces],fun b member => ?_⟩
    rcases List.mem_cons.mp member with rfl | after
    · cases found : old.find? fun b => b.space.name == space.name && b.space.size == space.size with
      | some o =>
        rw [found] at outcome
        simp only [generationZoneInit,Option.map_some,Prod.mk.injEq] at outcome
        obtain ⟨state,attached⟩ := attaches.mp outcome.1
        have same := List.find?_some found
        simp only [Bool.and_eq_true,beq_iff_eq] at same
        exact ⟨attached,.kept (List.mem_of_find?_eq_some found) same.1 same.2 (Option.some.inj state)⟩
      | none =>
        rw [found] at outcome
        simp only [generationZoneInit,Option.map_none] at outcome
        rcases creates births space (answers.headD ⟨false,none⟩) with ⟨epoch,_,made⟩ | ⟨_,e,failed⟩
        · rw [made] at outcome
          simp only [Prod.mk.injEq,Except.ok.injEq] at outcome
          obtain ⟨rfl,rfl⟩ := outcome
          refine ⟨⟨rfl,rfl⟩,sourceLater List.prefix_rfl later.grows (@SpaceSource.created _ _ _ _ epoch ?_ le_rfl (by simp))⟩
          intro o member name size
          have none' := List.find?_eq_none.mp found o member
          simp [name,size] at none'
        · rw [failed] at outcome
          simp at outcome
    · exact ⟨(sources b after).1,sourceLater first.grows List.prefix_rfl (sources b after).2⟩

structure Cycle.Valid (births : List Birth) (cycle : Cycle) : Prop where
  names : (cycle.spaces.map fun b => b.space.name).Nodup
  born : ∀ b ∈ cycle.spaces, ∃ epoch,
    births[b.shared.birth]? = some ⟨b.space.name,b.space.statePath,epoch⟩
  attached : ∀ b ∈ cycle.spaces, Attached b.space b.shared

theorem cycleLater {births births' : List Birth} (grows : births <+: births') {cycle : Cycle}
    (valid : cycle.Valid births) : cycle.Valid births' := by
  refine ⟨valid.names,fun b member => ?_,valid.attached⟩
  obtain ⟨epoch,born⟩ := valid.born b member
  exact ⟨epoch,birthLater grows born⟩

theorem configureExtends (pagesize : Nat) (births : List Birth) (old : Option Cycle) (conf : Configuration) :
    Extends births (configure pagesize births old conf).2 := by
  unfold configure
  dsimp only
  split
  · exact extendsRefl births
  · rename_i spaces _
    split
    · exact extendsRefl births
    · have made := initExtends ((old.map Cycle.spaces).getD []) spaces conf.zones births
      split
      · rename_i outcome
        rwa [outcome] at made
      · rename_i outcome
        rw [outcome] at made
        split <;> exact made

structure Configured (pagesize : Nat) (births births' : List Birth) (old : Option Cycle) (conf : Configuration)
    (cycle : Cycle) : Prop where
  asked : List.Forall₂ (Asks pagesize) conf.directives (cycle.spaces.map Bound.space)
  valid : cycle.Valid births'
  kept : ∀ o ∈ old, ∀ b ∈ o.spaces, b ∈ cycle.spaces
  since : ∀ b ∈ cycle.spaces, (∃ o ∈ old, b ∈ o.spaces) ∨ births.length ≤ b.shared.birth

theorem spaceOf {cycle : Cycle} {births : List Birth} (valid : cycle.Valid births) {b b' : Bound}
    (member : b ∈ cycle.spaces) (member' : b' ∈ cycle.spaces) (same : b.space.name = b'.space.name) : b = b' :=
  List.inj_on_of_nodup_map valid.names member member' same

theorem boundEq {births : List Birth} {old : Cycle} (valid : old.Valid births) {o b : Bound}
    (member : o ∈ old.spaces) (attached : Attached b.space b.shared) (name : o.space.name = b.space.name)
    (size : o.space.size = b.space.size) (shared : o.shared = b.shared) : o = b := by
  have path := (valid.attached o member).statePath
  rw [shared,attached.statePath] at path
  obtain ⟨⟨name₁,size₁,path₁⟩,shared₁⟩ := o
  obtain ⟨⟨name₂,size₂,path₂⟩,shared₂⟩ := b
  simp only at name size path shared
  subst name size shared
  simp [path]

theorem configured {pagesize : Nat} {births births' : List Birth} {old : Option Cycle} {conf : Configuration}
    {cycle : Cycle} (valid : ∀ o ∈ old, o.Valid births)
    (ok : configure pagesize births old conf = (.ok cycle,births')) :
    Configured pagesize births births' old conf cycle := by
  unfold configure at ok
  dsimp only at ok
  split at ok <;> try simp only [Prod.mk.injEq,reduceCtorEq,false_and] at ok
  rename_i spaces declared
  split at ok <;> try simp only [Prod.mk.injEq,reduceCtorEq,false_and] at ok
  rename_i removed
  split at ok <;> try simp only [Prod.mk.injEq,reduceCtorEq,false_and] at ok
  rename_i bounds births₁ outcome
  split at ok <;> simp only [Prod.mk.injEq,Except.ok.injEq,reduceCtorEq,false_and] at ok
  obtain ⟨rfl,rfl⟩ := ok
  obtain ⟨made,sources⟩ := initSources outcome
  obtain ⟨added,rfl,asked,sizes,distinct⟩ := (declaresSpaces (by simp)).mp declared
  subst made
  cases old with
  | none =>
    have fresh : ∀ b ∈ bounds, births.length ≤ b.shared.birth ∧ ∃ epoch,
        births₁[b.shared.birth]? = some ⟨b.space.name,b.space.statePath,epoch⟩ := by
      intro b member
      cases (sources b member).2 with
      | kept member' => simp at member'
      | created absent since born => exact ⟨since,_,born⟩
    exact ⟨asked,⟨by simpa [Function.comp_def] using distinct,fun b member => (fresh b member).2,
      fun b member => (sources b member).1⟩,by simp,fun b member => .inr (fresh b member).1⟩
  | some o =>
    have old := valid o rfl
    simp only [Option.map_some,Option.getD_some] at sizes removed sources outcome
    have origin : ∀ b ∈ bounds, b ∈ o.spaces ∨ (births.length ≤ b.shared.birth ∧ ∃ epoch,
        births₁[b.shared.birth]? = some ⟨b.space.name,b.space.statePath,epoch⟩) ∧
        ∀ o' ∈ o.spaces, o'.space.name ≠ b.space.name := by
      intro b member
      obtain ⟨attached,source⟩ := sources b member
      cases source with
      | @kept o' member' name size shared =>
        left
        rwa [← boundEq old member' attached name size shared]
      | created absent since born =>
        refine .inr ⟨⟨since,_,born⟩,fun o' member' name => absent o' member' name ?_⟩
        exact keepsSizeOf.mp (sizes _ (List.mem_map_of_mem member)) o' member' name
    refine ⟨asked,⟨by simpa [Function.comp_def] using distinct,fun b member => ?_,
      fun b member => (sources b member).1⟩,?_,?_⟩
    · rcases origin b member with here | ⟨⟨_,born⟩,_⟩
      · obtain ⟨epoch,born⟩ := old.born b here
        have grows := (initExtends o.spaces (bounds.map Bound.space) conf.zones births).grows
        rw [outcome] at grows
        exact ⟨epoch,birthLater grows born⟩
      · exact born
    · intro o' same b here
      cases Option.some.inj same
      have present := removesNone.mp removed b here
      simp only [List.map_map,List.mem_map,Function.comp_apply] at present
      obtain ⟨b',member,name⟩ := present
      rcases origin b' member with there | ⟨_,absent⟩
      · rwa [spaceOf old here there name.symm]
      · exact absurd name.symm (absent b here)
    · intro b member
      rcases origin b member with here | ⟨⟨since,_⟩,_⟩
      · exact .inl ⟨o,rfl,here⟩
      · exact .inr since

section acceptance
variable {pagesize : Nat} {births : List Birth} {old : Cycle} {conf : Configuration}

structure Unused (births : List Birth) (answers : List ZoneAnswers) : Prop where
  slabs : ∀ a ∈ answers, a.slab = true
  markers : ∀ a ∈ answers, ∃ epoch, a.marker = some epoch ∧ ∀ b ∈ births, b.epoch ≠ epoch
  apart : answers.Pairwise fun a b => a.marker ≠ b.marker

structure Granted (births : List Birth) (conf : Configuration) : Prop where
  directives : ∀ d ∈ conf.directives, d.parsed.isSome = true ∧ d.fullName.isSome = true ∧
    d.records = true ∧ d.zoneName = true ∧ d.zone = true ∧ d.pushed = true
  zones : conf.directives.length ≤ conf.zones.length
  unused : Unused births conf.zones
  accepted : conf.accepted = true

theorem initAccepts {bounds : List Bound} {spaces : List Space} {answers : List ZoneAnswers}
    (attached : ∀ s ∈ spaces, ∀ o ∈ bounds, o.space.name = s.name → o.space.size = s.size → Attached s o.shared)
    (enough : spaces.length ≤ answers.length) (unused : Unused births answers) :
    ∃ made births', initZones bounds spaces answers births = (.ok made,births') := by
  induction spaces generalizing answers births with
  | nil => exact ⟨[],births,rfl⟩
  | cons space rest ih =>
    cases answers with
    | nil => simp at enough
    | cons answer answers =>
      have later := fun s member => attached s (List.mem_cons_of_mem _ member)
      obtain ⟨others,apart⟩ := List.pairwise_cons.mp unused.apart
      have slabs := fun a member => unused.slabs a (List.mem_cons_of_mem _ member)
      simp only [initZones,List.headD_cons,List.tail_cons]
      cases found : bounds.find? fun b => b.space.name == space.name && b.space.size == space.size with
      | some o =>
        have same := List.find?_some found
        simp only [Bool.and_eq_true,beq_iff_eq] at same
        have ok := attaches.mpr ⟨rfl,attached space List.mem_cons_self o (List.mem_of_find?_eq_some found)
          same.1 same.2⟩
        simp only [Option.map_some,generationZoneInit,ok]
        obtain ⟨made,births',init⟩ := ih later (by simpa using enough)
          ⟨slabs,fun a member => unused.markers a (List.mem_cons_of_mem _ member),apart⟩
        exact ⟨⟨space,o.shared⟩ :: made,births',by rw [init]⟩
      | none =>
        obtain ⟨epoch,marker,fresh⟩ := unused.markers answer List.mem_cons_self
        have unusedHere : freshMarker births space answer = some epoch := by
          simp only [freshMarker,unused.slabs answer List.mem_cons_self,marker,if_true]
          refine Option.filter_eq_some_iff.mpr ⟨rfl,?_⟩
          simp only [Bool.not_eq_true',List.any_eq_false,Bool.and_eq_true,beq_iff_eq,not_and]
          exact fun b member _ => fresh b member
        simp only [Option.map_none,generationZoneInit]
        rcases creates births space answer with ⟨epoch',same,made⟩ | ⟨none',_⟩
        · rw [unusedHere] at same
          cases Option.some.inj same
          rw [made]
          have markers : ∀ a ∈ answers, ∃ epoch', a.marker = some epoch' ∧
              ∀ b ∈ births ++ [⟨space.name,space.statePath,epoch⟩], b.epoch ≠ epoch' := by
            intro a member
            obtain ⟨epoch',marker',fresh'⟩ := unused.markers a (List.mem_cons_of_mem _ member)
            refine ⟨epoch',marker',fun b here => ?_⟩
            rcases List.mem_append.mp here with before | last
            · exact fresh' b before
            · cases List.mem_singleton.mp last
              exact fun equal => others a member (by rw [marker,marker',← equal])
          obtain ⟨bounds',births',init⟩ := ih later (by simpa using enough) ⟨slabs,markers,apart⟩
          exact ⟨⟨space,⟨1,space.statePath,births.length⟩⟩ :: bounds',births',by simp only [init]⟩
        · simp [none'] at unusedHere

theorem asksFor {d : NamespaceDirective} (legal : (legalName d.name).isSome = true)
    (enough : ∀ size ∈ d.parsed, 8 * pagesize ≤ size)
    (granted : d.parsed.isSome = true ∧ d.fullName.isSome = true ∧
      d.records = true ∧ d.zoneName = true ∧ d.zone = true ∧ d.pushed = true) : ∃ s, Asks pagesize d s := by
  obtain ⟨name,named⟩ := Option.isSome_iff_exists.mp legal
  obtain ⟨sized,located,granted⟩ := granted
  obtain ⟨size,sized⟩ := Option.isSome_iff_exists.mp sized
  obtain ⟨path,located⟩ := Option.isSome_iff_exists.mp located
  exact ⟨⟨name,size,path⟩,⟨legalNameOf.mp named,sized,located,enough size sized,granted⟩⟩

theorem asksAll {directives : List NamespaceDirective} (each : ∀ d ∈ directives, ∃ s, Asks pagesize d s) :
    ∃ spaces, List.Forall₂ (Asks pagesize) directives spaces := by
  induction directives with
  | nil => exact ⟨[],.nil⟩
  | cons d rest ih =>
    obtain ⟨s,asks⟩ := each d List.mem_cons_self
    obtain ⟨spaces,asked⟩ := ih fun d member => each d (List.mem_cons_of_mem _ member)
    exact ⟨s :: spaces,.cons asks asked⟩

theorem askedNames {directives : List NamespaceDirective} {spaces : List Space}
    (asked : List.Forall₂ (Asks pagesize) directives spaces) :
    directives.map NamespaceDirective.name = spaces.map fun s => s.name.bytes := by
  induction asked with
  | nil => rfl
  | cons asks _ ih => simp [ih,asks.named]

theorem askedSpace {directives : List NamespaceDirective} {spaces : List Space}
    (asked : List.Forall₂ (Asks pagesize) directives spaces) {s : Space} (member : s ∈ spaces) :
    ∃ d ∈ directives, Asks pagesize d s := by
  induction asked with
  | nil => simp at member
  | cons asks _ ih =>
    rcases List.mem_cons.mp member with rfl | rest
    · exact ⟨_,List.mem_cons_self,asks⟩
    · obtain ⟨d,here,asks'⟩ := ih rest
      exact ⟨d,List.mem_cons_of_mem _ here,asks'⟩

theorem askedDirective {directives : List NamespaceDirective} {spaces : List Space}
    (asked : List.Forall₂ (Asks pagesize) directives spaces) {d : NamespaceDirective} (member : d ∈ directives) :
    ∃ s ∈ spaces, Asks pagesize d s := by
  induction asked with
  | nil => simp at member
  | cons asks _ ih =>
    rcases List.mem_cons.mp member with rfl | rest
    · exact ⟨_,List.mem_cons_self,asks⟩
    · obtain ⟨s,here,asks'⟩ := ih rest
      exact ⟨s,List.mem_cons_of_mem _ here,asks'⟩

theorem configureAccepts (valid : old.Valid births) (granted : Granted births conf) :
    (∃ cycle, (configure pagesize births (some old) conf).1 = .ok cycle) ↔
      (conf.directives.map NamespaceDirective.name).Nodup ∧
      (∀ d ∈ conf.directives, (legalName d.name).isSome = true ∧ ∀ size ∈ d.parsed, 8 * pagesize ≤ size) ∧
      ∀ b ∈ old.spaces, ∃ d ∈ conf.directives, d.name = b.space.name.bytes ∧
        d.parsed = some b.space.size ∧ d.fullName = some b.space.statePath := by
  have olds : ∀ o ∈ some old, o.Valid births := fun o same => Option.some.inj same ▸ valid
  constructor
  · rintro ⟨cycle,ok⟩
    have made := @configured pagesize births (configure pagesize births (some old) conf).2 (some old) conf cycle olds
      (by rw [← ok])
    have names := askedNames made.asked
    refine ⟨?_,fun d member => ?_,fun b member => ?_⟩
    · have distinct := made.valid.names.map (f := Name.bytes) fun _ _ same => nameEq same
      rw [List.map_map] at distinct
      rw [names,List.map_map]
      exact distinct
    · obtain ⟨s,_,asks⟩ := askedDirective made.asked member
      refine ⟨by rw [← asks.named,legalNameOf.mpr rfl]; rfl,fun size sized => ?_⟩
      rw [asks.sized] at sized
      cases Option.some.inj sized
      exact asks.enough
    · obtain ⟨d,here,asks⟩ := askedSpace made.asked (List.mem_map_of_mem (made.kept old rfl b member))
      exact ⟨d,here,asks.named.symm,asks.sized,asks.located⟩
  · rintro ⟨apart,legal,present⟩
    obtain ⟨spaces,asked⟩ := asksAll fun d member =>
      asksFor (legal d member).1 (legal d member).2 (granted.directives d member)
    have same : ∀ s ∈ spaces, ∀ b ∈ old.spaces, b.space.name = s.name → b.space = s := by
      intro s member b here name
      obtain ⟨d,listed,asks⟩ := askedSpace asked member
      obtain ⟨d',listed',named,sized,located⟩ := present b here
      have directive := List.inj_on_of_nodup_map apart listed' listed (by rw [named,name,asks.named])
      subst directive
      have sized' := Option.some.inj (sized.symm.trans asks.sized)
      have located' := Option.some.inj (located.symm.trans asks.located)
      obtain ⟨⟨name₁,size₁,path₁⟩,shared₁⟩ := b
      obtain ⟨name₂,size₂,path₂⟩ := s
      simp only at name sized' located'
      rw [name,sized',located']
    have distinct : (spaces.map Space.name).Nodup := by
      have bytes := askedNames asked
      rw [bytes] at apart
      refine List.Nodup.of_map Name.bytes ?_
      rwa [List.map_map]
    have declared : declareSpaces pagesize old.zones [] conf.directives = .ok spaces :=
      (declaresSpaces (by simp)).mpr ⟨spaces,rfl,asked,
        fun s member => keepsSizeOf.mpr fun b here name => by rw [same s member b here name],distinct⟩
    have removed : removedZone old.zones spaces = none := by
      refine removesNone.mpr fun b here => ?_
      obtain ⟨d,listed,named,_⟩ := present b here
      obtain ⟨s,member,asks⟩ := askedDirective asked listed
      exact List.mem_map.mpr ⟨s,member,nameEq (asks.named.trans named)⟩
    have attached : ∀ s ∈ spaces, ∀ o ∈ old.spaces, o.space.name = s.name → o.space.size = s.size →
        Attached s o.shared := by
      intro s member o here name _
      rw [← same s member o here name]
      exact valid.attached o here
    obtain ⟨made,births',init⟩ := initAccepts attached (by rw [← asked.length_eq]; exact granted.zones)
      granted.unused
    refine ⟨⟨made,conf.others⟩,?_⟩
    simp only [configure,Option.map_some,Option.getD_some,declared,removed,init,granted.accepted,if_true]

end acceptance
end CachePurge
