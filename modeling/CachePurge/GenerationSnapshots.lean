import CachePurge.GenerationRuns

/-! One request for as long as it lives. Whatever others do, its evaluations of
the key are those of a request alone with the namespaces, and each pair of a
namespace and a logical key is encoded once, with the generation that was live
then. ngx_http_cache_purge_init compares two evaluations of one request. -/
namespace CachePurge
open General

structure Variable where
  data : Bytes
  valid : Bool
  noCacheable : Bool
  notFound : Bool
  deriving DecidableEq, Repr

/- generated is the answer of ngx_http_cache_purge_generation_key, none without a namespace. -/
def cachePurgeKeyVariable (generated : Option (Rc × Option Snapshot)) (v : Variable) : Rc × Variable :=
  match generated with
  | none => (.ok,{v with notFound := true})
  | some (rc,snap) =>
    if rc != .ok then (.error,v)
    else (.ok,⟨(snap.map Snapshot.encoded).getD [],true,true,false⟩)

inductive InitRc where
  | rc (rc : Rc)
  | status (code : Nat)
  deriving DecidableEq, Repr

structure PurgeInit where
  body : InitRc
  context : Bool
  keys : Bool
  slot : Bool

def cachePurgeInit (call : PurgeInit) (generated : Option (Rc × Option Snapshot)) (native : Option Bytes) :
    InitRc × Option Bytes :=
  if call.body ≠ .rc .ok then (call.body,none)
  else if !call.context then (.rc .error,none)
  else if !call.keys then (.rc .error,none)
  else if !call.slot then (.rc .error,none)
  else match generated with
    | none => match native with
      | none => (.rc .error,none)
      | some key => (.rc .ok,some key)
    | some (rc,snap) =>
      if rc ≠ .ok then (.rc (if rc = .declined then .busy else .error),none)
      else match native with
        | none => (.rc .error,none)
        | some key =>
          if key ≠ (snap.map Snapshot.encoded).getD [] then (.rc .declined,none)
          else (.rc .ok,some ((snap.map Snapshot.logical).getD []))

def PurgeInit.Admitted (call : PurgeInit) : Prop :=
  call.body = .rc .ok ∧ call.context = true ∧ call.keys = true ∧ call.slot = true

inductive PurgeReply where
  | status (code : Nat)
  | invalidSelector | keyMismatch | internalError
  deriving DecidableEq, Repr

/- ngx_http_cache_purge_init_response, for an answer other than NGX_OK. -/
def initResponse : InitRc → PurgeReply
  | .status code => if 400 ≤ code then .status code else .internalError
  | .rc .busy => .invalidSelector
  | .rc .declined => .keyMismatch
  | .rc _ => .internalError

structure Life where
  zones : Nat → Zone
  context : Option RequestContext

def Life.held (s : Life) : List Snapshot := (s.context.map RequestContext.snapshots).getD []

def World.life (r : Request) (w : World) : Life := ⟨w.zones,(w.pools r.pool).context r.address⟩

def KeyEvent.own (r : Request) : KeyEvent → Option KeyEvent
  | .invalidate ns call => some (.invalidate ns call)
  | .enter q granted => if q = r then some (.enter q granted) else none
  | .leave q ns value room => if q = r then some (.leave q ns value room) else none

def KeyOutput.own (r : Request) : KeyOutput → Option KeyOutput
  | .minted q snap => if q = r then some (.minted q snap) else none
  | .answered ns call rc => some (.answered ns call rc)

section life
variable (names : Nat → Name) (r : Request)

def Life.step (s : Life) : KeyEvent → Life × List KeyOutput
  | .invalidate ns call =>
    let outcome := generationInvalidate (names ns) call (s.zones ns)
    ({s with zones := Function.update s.zones ns outcome.2},[.answered ns call outcome.1])
  | .enter _ granted =>
    match s.context with
    | none => (if granted then {s with context := some ⟨r.address,[],true⟩} else s,[])
    | some ctx => ({s with context := some {ctx with evaluating := true}},[])
  | .leave _ ns value room =>
    match s.context with
    | none => (s,[])
    | some ctx =>
      if ctx.evaluating then
        let outcome := generationKeyLeave (names ns) ns (s.zones ns) value room ctx
        ({s with context := some outcome.2.2},(outcome.2.1.map (KeyOutput.minted r)).toList)
      else (s,[])

def lifeMachine : Machine Life KeyEvent KeyOutput := ⟨Life.step names r⟩

theorem enterContext (granted : Bool) (q : Nat) (pool : Pool) (a : Nat) :
    (generationKeyEnter granted q pool).2.context a = if q = a then
      (match pool.context a with
        | none => if granted then some ⟨a,[],true⟩ else none
        | some ctx => some {ctx with evaluating := true})
    else pool.context a := by
  unfold generationKeyEnter
  by_cases same : q = a
  · subst same
    rw [if_pos rfl]
    cases found : pool.context q with
    | none =>
      cases granted with
      | true => simp [Pool.context]
      | false => simpa using found
    | some ctx =>
      have mine : ctx.request = q := contextSource found
      simp only []
      split
      · rename_i evaluating
        rw [found]
        obtain ⟨_,_,_⟩ := ctx
        simp only at evaluating
        rw [evaluating]
      · rw [contextStore,if_pos mine,found]
        rfl
  · rw [if_neg same]
    cases found : pool.context q with
    | none =>
      cases granted with
      | true => simp [Pool.context,same]
      | false => rfl
    | some ctx =>
      have mine : ctx.request = q := contextSource found
      simp only []
      split
      · rfl
      · rw [contextStore]
        exact if_neg fun here => same (mine.symm.trans here)

theorem otherLeave {q : Request} (apart : q ≠ r) {w : World} {ctx ctx' : RequestContext}
    (found : (w.pools q.pool).context q.address = some ctx) (same : ctx'.request = ctx.request) :
    (Function.update w.pools q.pool ((w.pools q.pool).store ctx') r.pool).context r.address =
      (w.pools r.pool).context r.address := by
  by_cases pool : r.pool = q.pool
  · rw [pool,Function.update_self,contextStore]
    refine if_neg fun here => apart ?_
    obtain ⟨qpool,qaddress⟩ := q
    obtain ⟨rpool,raddress⟩ := r
    rw [Request.mk.injEq]
    exact ⟨pool.symm,(contextSource found).symm.trans (same.symm.trans here)⟩
  · rw [Function.update_of_ne pool]

theorem worldProjects : (worldMachine names).Projects (lifeMachine names r) (World.life r)
    (KeyEvent.own r) (KeyOutput.own r) := by
  constructor
  · intro w e other
    cases e with
    | invalidate ns call => simp [KeyEvent.own] at other
    | enter q granted =>
      have apart : q ≠ r := fun same => by simp [KeyEvent.own,same] at other
      refine ⟨?_,rfl⟩
      simp only [World.life,worldMachine,World.step,Life.mk.injEq,true_and]
      by_cases pool : r.pool = q.pool
      · rw [pool,Function.update_self,enterContext]
        refine if_neg fun here => apart ?_
        obtain ⟨_,_⟩ := q
        obtain ⟨_,_⟩ := r
        simp_all
      · rw [Function.update_of_ne pool]
    | leave q ns value room =>
      have apart : q ≠ r := fun same => by simp [KeyEvent.own,same] at other
      simp only [worldMachine,World.step]
      cases found : (w.pools q.pool).context q.address with
      | none => exact ⟨rfl,rfl⟩
      | some ctx =>
        simp only []
        split
        · obtain ⟨same,_,_⟩ := @leaveSnapshots (names ns) ns (w.zones ns) value room ctx
          refine ⟨?_,?_⟩
          · simp only [World.life,otherLeave r apart found same]
          · cases (generationKeyLeave (names ns) ns (w.zones ns) value room ctx).2.1 with
            | none => rfl
            | some snap => simp [KeyOutput.own,apart]
        · exact ⟨rfl,rfl⟩
  · intro w e e' mine
    cases e with
    | invalidate ns call =>
      cases Option.some.inj mine
      exact ⟨rfl,rfl⟩
    | enter q granted =>
      simp only [KeyEvent.own] at mine
      split at mine <;> try contradiction
      rename_i same
      subst same
      cases Option.some.inj mine
      refine ⟨?_,?_⟩
      · simp only [World.life,worldMachine,World.step,lifeMachine,Life.step,Function.update_self,enterContext]
        cases found : (w.pools q.pool).context q.address with
        | none => cases granted <;> simp
        | some ctx => simp
      · simp only [worldMachine,World.step,lifeMachine,Life.step]
        cases (w.life q).context <;> rfl
    | leave q ns value room =>
      simp only [KeyEvent.own] at mine
      split at mine <;> try contradiction
      rename_i same
      subst same
      cases Option.some.inj mine
      simp only [World.life,worldMachine,World.step,lifeMachine,Life.step]
      cases found : (w.pools q.pool).context q.address with
      | none => exact ⟨by rw [found],rfl⟩
      | some ctx =>
        simp only []
        split
        · obtain ⟨same,_,_⟩ := @leaveSnapshots (names ns) ns (w.zones ns) value room ctx
          refine ⟨?_,?_⟩
          · simp only [Function.update_self,contextStore,found]
            rw [if_pos (same.trans (contextSource found))]
            rfl
          · cases (generationKeyLeave (names ns) ns (w.zones ns) value room ctx).2.1 with
            | none => rfl
            | some snap => simp [KeyOutput.own]
        · exact ⟨by rw [found],rfl⟩

theorem leaveCases (name : Name) (ns : Nat) (z : Zone) (value : Option Bytes) (room : Bool × Bool)
    (ctx : RequestContext) : let outcome := generationKeyLeave name ns z value room ctx
    (outcome.2.1 = none ∧ outcome.2.2.snapshots = ctx.snapshots) ∨
    (∃ snap ∈ ctx.snapshots, outcome.2.1 = some snap ∧ outcome.2.2.snapshots = ctx.snapshots) ∨
    ∃ snap, outcome.2.1 = some snap ∧ outcome.2.2.snapshots = snap :: ctx.snapshots ∧ snap.ns = ns ∧
      snap.logical.length ≤ logicalKeyMax ∧
      snap.encoded = generationEncode name z.shared.epoch (generationLookup z.shared snap.logical)
        snap.logical ∧
      ∀ old ∈ ctx.snapshots, ¬ (old.ns = snap.ns ∧ old.logical = snap.logical) := by
  intro outcome
  subst outcome
  unfold generationKeyLeave
  cases value with
  | none => exact .inl ⟨rfl,rfl⟩
  | some key =>
    simp only []
    split
    · exact .inl ⟨rfl,rfl⟩
    · rename_i short
      split
      · rename_i snap found
        exact .inr (.inl ⟨snap,List.mem_of_find?_eq_some found,rfl,rfl⟩)
      · rename_i absent
        split
        · exact .inl ⟨rfl,rfl⟩
        · split
          · exact .inl ⟨rfl,rfl⟩
          · refine .inr (.inr ⟨_,rfl,rfl,rfl,by simpa using short,rfl,fun old member same => ?_⟩)
            have other := List.find?_eq_none.mp absent old member
            simp [same.1,same.2] at other

theorem leaveHeld {name : Name} {z : Zone} {room : Bool × Bool} {ctx : RequestContext} {snap : Snapshot}
    (member : snap ∈ ctx.snapshots) (short : snap.logical.length ≤ logicalKeyMax)
    (single : ∀ other ∈ ctx.snapshots, other.ns = snap.ns → other.logical = snap.logical → other = snap) :
    generationKeyLeave name snap.ns z (some snap.logical) room ctx =
      (.ok,some snap,{ctx with evaluating := false}) := by
  have found : (ctx.snapshots.find? fun s => s.ns == snap.ns && s.logical == snap.logical) = some snap := by
    cases first : ctx.snapshots.find? fun s => s.ns == snap.ns && s.logical == snap.logical with
    | none => simpa using List.find?_eq_none.mp first snap member
    | some other =>
      have pair := List.find?_some first
      simp only [Bool.and_eq_true,beq_iff_eq] at pair
      rw [single other (List.mem_of_find?_eq_some first) pair.1 pair.2]
  simp only [generationKeyLeave,Nat.not_lt.mpr short,if_false,found]

theorem lifeMoves (s : Life) (e : KeyEvent) :
    ((∀ snap, .minted r snap ∉ (s.step names r e).2) ∧ (s.step names r e).1.held = s.held) ∨
    ∃ snap, (∀ other, .minted r other ∈ (s.step names r e).2 ↔ other = snap) ∧
      ((snap ∈ s.held ∧ (s.step names r e).1.held = s.held) ∨
      ((s.step names r e).1.held = snap :: s.held ∧ snap.logical.length ≤ logicalKeyMax ∧
        snap.encoded = generationEncode (names snap.ns) (s.zones snap.ns).shared.epoch
          (generationLookup (s.zones snap.ns).shared snap.logical) snap.logical ∧
        ∀ old ∈ s.held, ¬ (old.ns = snap.ns ∧ old.logical = snap.logical))) := by
  cases e with
  | invalidate ns call => exact .inl ⟨fun snap => by simp [Life.step],rfl⟩
  | enter q granted =>
    left
    cases found : s.context with
    | none => cases granted <;> simp [Life.step,Life.held,found]
    | some ctx => simp [Life.step,Life.held,found]
  | leave q ns value room =>
    cases found : s.context with
    | none => exact .inl ⟨fun snap => by simp [Life.step,found],by simp [Life.step,found]⟩
    | some ctx =>
      simp only [Life.step,Life.held,found]
      split
      · rcases leaveCases (names ns) ns (s.zones ns) value room ctx with
          ⟨given,same⟩ | ⟨snap,member,given,same⟩ | ⟨snap,given,grown,rfl,short,encoded,unknown⟩
        · exact .inl ⟨fun snap => by simp [given],by simp [same]⟩
        · exact .inr ⟨snap,fun other => by simp [given,eq_comm],.inl ⟨member,by simp [same]⟩⟩
        · exact .inr ⟨snap,fun other => by simp [given,eq_comm],.inr ⟨by simp [grown],short,encoded,unknown⟩⟩
      · exact .inl ⟨fun snap => by simp,by simp [found]⟩

structure Life.Kept (past : List KeyOutput) (s : Life) : Prop where
  held : ∀ snap, .minted r snap ∈ past ↔ snap ∈ s.held
  short : ∀ snap ∈ s.held, snap.logical.length ≤ logicalKeyMax
  single : ∀ a ∈ s.held, ∀ b ∈ s.held, a.ns = b.ns → a.logical = b.logical → a = b

theorem lifeKept {past : List KeyOutput} {s : Life} (kept : s.Kept r past) (e : KeyEvent) :
    (s.step names r e).1.Kept r (past ++ (s.step names r e).2) := by
  rcases lifeMoves names r s e with ⟨silent,same⟩ | ⟨snap,minted,⟨old,same⟩ | ⟨grown,short,_,unknown⟩⟩
  · refine ⟨fun snap => ?_,by rw [same]; exact kept.short,by rw [same]; exact kept.single⟩
    rw [same,← kept.held,List.mem_append,or_iff_left (silent snap)]
  · refine ⟨fun other => ?_,by rw [same]; exact kept.short,by rw [same]; exact kept.single⟩
    rw [same,List.mem_append,minted,kept.held,or_iff_left_of_imp]
    rintro rfl
    exact old
  · refine ⟨fun other => ?_,fun other member => ?_,fun a here b there ns logical => ?_⟩
    · rw [grown,List.mem_append,minted,kept.held,List.mem_cons,or_comm]
    · rw [grown] at member
      rcases List.mem_cons.mp member with rfl | before
      · exact short
      · exact kept.short other before
    · rw [grown] at here there
      rcases List.mem_cons.mp here with rfl | left <;> rcases List.mem_cons.mp there with rfl | right
      · rfl
      · exact absurd ⟨ns.symm,logical.symm⟩ (unknown b right)
      · exact absurd ⟨ns,logical⟩ (unknown a left)
      · exact kept.single a left b right ns logical

variable (epochs : Nat → Epoch)

theorem mintedOwn {outputs : List KeyOutput} {snap : Snapshot} :
    .minted r snap ∈ outputs.filterMap (KeyOutput.own r) ↔ .minted r snap ∈ outputs := by
  rw [List.mem_filterMap]
  constructor
  · rintro ⟨o,member,same⟩
    cases o with
    | minted q s =>
      simp only [KeyOutput.own] at same
      split at same <;> try contradiction
      rwa [← Option.some.inj same]
    | answered ns call rc => simp [KeyOutput.own] at same
  · intro member
    exact ⟨_,member,by simp [KeyOutput.own]⟩

theorem runKept (events : List KeyEvent) : (((worldMachine names).after (worldInit epochs) events).life r).Kept r
    ((worldMachine names).outputs (worldInit epochs) events) := by
  obtain ⟨state,outputs⟩ := (worldMachine names).projected (worldProjects names r) (worldInit epochs) events
  have alone := (lifeMachine names r).tracks (P := Life.Kept r) (s := (worldInit epochs).life r)
    ⟨fun snap => by simp [Life.held,World.life,worldInit,Pool.context],
      fun snap member => by simp [Life.held,World.life,worldInit,Pool.context] at member,
      fun snap member => by simp [Life.held,World.life,worldInit,Pool.context] at member⟩
    (fun past s e kept => lifeKept names r kept e) (events.filterMap (KeyEvent.own r))
  rw [← state,← outputs] at alone
  exact ⟨fun snap => (mintedOwn r).symm.trans (alone.held snap),alone.short,alone.single⟩

theorem mintedMoves {w : World} {e : KeyEvent} {snap : Snapshot} (minted : .minted r snap ∈ (w.step names e).2) :
    snap ∈ (w.life r).held ∨ snap.encoded = generationEncode (names snap.ns) (w.zones snap.ns).shared.epoch
      (generationLookup (w.zones snap.ns).shared snap.logical) snap.logical := by
  rw [← mintedOwn r] at minted
  cases own : e.own r with
  | none =>
    have silent := ((worldProjects names r).kept w e own).2
    simp only [worldMachine] at silent
    simp [silent] at minted
  | some e' =>
    have same := ((worldProjects names r).moved w e e' own).2
    simp only [worldMachine,lifeMachine] at same
    rw [same] at minted
    rcases lifeMoves names r (w.life r) e' with ⟨silent,_⟩ | ⟨s,only,⟨old,_⟩ | ⟨_,_,encoded,_⟩⟩
    · exact absurd minted (silent snap)
    · rw [(only snap).mp minted]
      exact .inl old
    · rw [(only snap).mp minted]
      exact .inr encoded

end life

theorem ownTwice (r : Request) (events : List KeyEvent) :
    (events.filterMap (KeyEvent.own r)).filterMap (KeyEvent.own r) = events.filterMap (KeyEvent.own r) := by
  rw [List.filterMap_filterMap]
  refine List.filterMap_congr fun e _ => ?_
  cases e with
  | invalidate ns call => rfl
  | enter q granted =>
    by_cases same : q = r
    · simp [KeyEvent.own,same]
    · simp [KeyEvent.own,same]
  | leave q ns value room =>
    by_cases same : q = r
    · simp [KeyEvent.own,same]
    · simp [KeyEvent.own,same]

theorem othersUnseen (names : Nat → Name) (epochs : Nat → Epoch) (r : Request) (events : List KeyEvent) :
    ((worldMachine names).outputs (worldInit epochs) events).filterMap (KeyOutput.own r) =
    ((worldMachine names).outputs (worldInit epochs) (events.filterMap (KeyEvent.own r))).filterMap
      (KeyOutput.own r) := by
  have projects := worldProjects names r
  rw [((worldMachine names).projected projects (worldInit epochs) events).2,
    ((worldMachine names).projected projects (worldInit epochs) (events.filterMap (KeyEvent.own r))).2,ownTwice]

section repeated
variable {names : Nat → Name} {epochs : Nat → Epoch} {events : List KeyEvent} {r : Request} {snap : Snapshot}
  (minted : .minted r snap ∈ (worldMachine names).outputs (worldInit epochs) events)
include minted

theorem repeatedAnswer (room : Bool × Bool) {ctx : RequestContext} (found :
    ((((worldMachine names).after (worldInit epochs) events).pools r.pool).context r.address) = some ctx) :
    generationKeyLeave (names snap.ns) snap.ns (((worldMachine names).after (worldInit epochs) events).zones snap.ns)
      (some snap.logical) room ctx = (.ok,some snap,{ctx with evaluating := false}) := by
  have kept := runKept names r epochs events
  have held : (((worldMachine names).after (worldInit epochs) events).life r).held = ctx.snapshots := by
    simp [Life.held,World.life,found]
  have member := (kept.held snap).mp minted
  have short := kept.short snap member
  rw [held] at member
  refine leaveHeld member short fun other before ns logical => ?_
  rw [← held] at before member
  exact kept.single other before snap member ns logical

theorem mintedSame {snap' : Snapshot}
    (minted' : .minted r snap' ∈ (worldMachine names).outputs (worldInit epochs) events)
    (ns : snap'.ns = snap.ns) (logical : snap'.logical = snap.logical) : snap' = snap := by
  have kept := runKept names r epochs events
  exact kept.single snap' ((kept.held snap').mp minted') snap ((kept.held snap).mp minted) ns logical

theorem mintedApart {snap' : Snapshot}
    (minted' : .minted r snap' ∈ (worldMachine names).outputs (worldInit epochs) events)
    (ns : snap'.ns = snap.ns) : snap'.encoded = snap.encoded ↔ snap'.logical = snap.logical := by
  constructor
  · intro same
    obtain ⟨g,encoded,_⟩ := runIssued (initValid names epochs) events minted
    obtain ⟨g',encoded',_⟩ := runIssued (initValid names epochs) events minted'
    rw [encoded,encoded'] at same
    exact (encodeInjective same).2.2.2
  · intro logical
    rw [mintedSame minted minted' ns logical]

end repeated

theorem firstEncodes {names : Nat → Name} {epochs : Nat → Epoch} {front : List KeyEvent} {e : KeyEvent}
    {r : Request} {snap : Snapshot} (minted : .minted r snap ∈
      ((worldMachine names).step ((worldMachine names).after (worldInit epochs) front) e).2)
    (first : .minted r snap ∉ (worldMachine names).outputs (worldInit epochs) front) :
    snap.encoded = generationEncode (names snap.ns) (epochs snap.ns) (generationLookup
      (((worldMachine names).after (worldInit epochs) front).zones snap.ns).shared snap.logical) snap.logical := by
  rcases mintedMoves names r minted with held | encoded
  · exact absurd (((runKept names r epochs front).held snap).mpr held) first
  · rwa [(runValid (initValid names epochs) front).epoch] at encoded

theorem initCompares {call : PurgeInit} (admitted : call.Admitted) (snap : Snapshot) (native : Bytes) :
    cachePurgeInit call (some (.ok,some snap)) (some native) =
      if native = snap.encoded then (.rc .ok,some snap.logical) else (.rc .declined,none) := by
  obtain ⟨body,context,keys,slot⟩ := admitted
  by_cases same : native = snap.encoded
  · simp [cachePurgeInit,body,context,keys,slot,same]
  · simp [cachePurgeInit,body,context,keys,slot,same]

theorem initMismatch {call : PurgeInit} {generated : Option (Rc × Option Snapshot)} {native : Option Bytes}
    (refused : initResponse (cachePurgeInit call generated native).1 = .keyMismatch)
    (body : call.body = .rc .ok) : ∃ snap key, generated = some (.ok,snap) ∧ native = some key ∧
      key ≠ (snap.map Snapshot.encoded).getD [] := by
  unfold cachePurgeInit at refused
  rw [if_neg (not_not_intro body)] at refused
  split at refused
  · simp [initResponse] at refused
  · split at refused
    · simp [initResponse] at refused
    · split at refused
      · simp [initResponse] at refused
      · cases generated with
        | none => cases native <;> simp [initResponse] at refused
        | some answer =>
          obtain ⟨rc,snap⟩ := answer
          simp only at refused
          split at refused
          · split at refused <;> simp [initResponse] at refused
          · rename_i ok
            cases native with
            | none => simp [initResponse] at refused
            | some key =>
              simp only at refused
              split at refused
              · rename_i apart
                exact ⟨snap,key,by rw [not_not.mp ok],rfl,apart⟩
              · simp [initResponse] at refused

theorem nativeAgrees {names : Nat → Name} {epochs : Nat → Epoch} {events : List KeyEvent} {r : Request}
    {snap : Snapshot} (minted : .minted r snap ∈ (worldMachine names).outputs (worldInit epochs) events)
    {ctx : RequestContext} (found : ((((worldMachine names).after (worldInit epochs) events).pools
      r.pool).context r.address) = some ctx) (room : Bool × Bool) (v : Variable) {call : PurgeInit}
    (admitted : call.Admitted) :
    let outcome := generationKeyLeave (names snap.ns) snap.ns
      (((worldMachine names).after (worldInit epochs) events).zones snap.ns) (some snap.logical) room ctx
    let value := cachePurgeKeyVariable (some (outcome.1,outcome.2.1)) v
    value.1 = .ok ∧ cachePurgeInit call (some (.ok,some snap)) (some value.2.data) = (.rc .ok,some snap.logical) := by
  intro outcome value
  have answer : outcome = (.ok,some snap,{ctx with evaluating := false}) := repeatedAnswer minted room found
  have data : value = (.ok,⟨snap.encoded,true,true,false⟩) := by
    simp [value,answer,cachePurgeKeyVariable]
  rw [data]
  exact ⟨rfl,by rw [initCompares admitted,if_pos rfl]⟩

/- One generation for a request and a key, whatever is invalidated meanwhile; so the
two evaluations of a purge differ only where their logical keys do. -/
theorem requestOneGeneration (names : Nat → Name) (epochs : Nat → Epoch) :
    let run := (worldMachine names).after (worldInit epochs)
    let given := (worldMachine names).outputs (worldInit epochs)
    (∀ (front : List KeyEvent) (e : KeyEvent) (back : List KeyEvent) (r : Request) (snap : Snapshot),
      .minted r snap ∈ ((worldMachine names).step (run front) e).2 →
      (∀ old, .minted r old ∈ given front → ¬ (old.ns = snap.ns ∧ old.logical = snap.logical)) →
      snap.encoded = generationEncode (names snap.ns) (epochs snap.ns)
        (generationLookup ((run front).zones snap.ns).shared snap.logical) snap.logical ∧
      ∀ later, .minted r later ∈ given (front ++ e :: back) → later.ns = snap.ns →
        later.logical = snap.logical → later.encoded = snap.encoded) ∧
    (∀ (events : List KeyEvent) (r : Request) (snap : Snapshot) (ctx : RequestContext) (room : Bool × Bool),
      .minted r snap ∈ given events → ((run events).pools r.pool).context r.address = some ctx →
      ctx.evaluating = true → ((worldMachine names).step (run events)
        (.leave r snap.ns (some snap.logical) room)).2 = [.minted r snap]) ∧
    (∀ (granted : Bool) (r : Nat) (pool : Pool) (ctx : RequestContext), pool.context r = some ctx →
      ctx.evaluating = true → generationKeyEnter granted r pool = (.error,pool)) ∧
    (∀ (events : List KeyEvent) (r : Request), (given events).filterMap (KeyOutput.own r) =
      (given (events.filterMap (KeyEvent.own r))).filterMap (KeyOutput.own r)) ∧
    (∀ (events : List KeyEvent) (r : Request) (snap other : Snapshot) (call : PurgeInit),
      .minted r snap ∈ given events → .minted r other ∈ given events → other.ns = snap.ns → call.Admitted →
      (initResponse (cachePurgeInit call (some (.ok,some snap)) (some other.encoded)).1 = .keyMismatch ↔
        other.logical ≠ snap.logical)) ∧
    (∀ (events : List KeyEvent) (r : Request) (snap : Snapshot) (ctx : RequestContext) (room : Bool × Bool)
      (v : Variable) (call : PurgeInit), .minted r snap ∈ given events →
      ((run events).pools r.pool).context r.address = some ctx → call.Admitted →
      let outcome := generationKeyLeave (names snap.ns) snap.ns ((run events).zones snap.ns)
        (some snap.logical) room ctx
      let value := cachePurgeKeyVariable (some (outcome.1,outcome.2.1)) v
      value.1 = .ok ∧
      cachePurgeInit call (some (.ok,some snap)) (some value.2.data) = (.rc .ok,some snap.logical)) ∧
    ∀ (call : PurgeInit) (generated : Option (Rc × Option Snapshot)) (native : Option Bytes),
      call.body = .rc .ok → initResponse (cachePurgeInit call generated native).1 = .keyMismatch →
      ∃ snap key, generated = some (.ok,snap) ∧ native = some key ∧
        key ≠ (snap.map Snapshot.encoded).getD [] := by
  intro run given
  refine ⟨fun front e back r snap minted first => ⟨?_,fun later again ns logical => ?_⟩,
    fun events r snap ctx room minted found evaluating => ?_,
    fun granted r pool ctx found evaluating => by simp [generationKeyEnter,found,evaluating],
    fun events r => othersUnseen names epochs r events,
    fun events r snap other call minted minted' ns admitted => ?_,
    fun events r snap ctx room v call minted found admitted => nativeAgrees minted found room v admitted,
    fun call generated native body refused => initMismatch refused body⟩
  · exact firstEncodes minted fun before => first snap before ⟨rfl,rfl⟩
  · have here : .minted r snap ∈ given (front ++ e :: back) := by
      simp only [given,Machine.outputsAppend,Machine.outputsCons,List.mem_append]
      exact .inr (.inl minted)
    rw [mintedSame here again ns logical]
  · have answer := repeatedAnswer minted room found
    simp only [worldMachine,World.step]
    simp only [run,worldMachine] at found answer ⊢
    simp [found,evaluating,answer]
  · rw [initCompares admitted,ne_eq,← mintedApart minted minted' ns]
    split
    · rename_i same
      simp [initResponse,same]
    · rename_i apart
      simp [initResponse,apart]

theorem requestOneGenerationPurged :
    let events : List KeyEvent := [.enter ⟨0,0⟩ true,.leave ⟨0,0⟩ 0 (some [47,97]) (true,true),
      .invalidate 0 ⟨[47,42],false,none,true,[some 8]⟩,.enter ⟨0,1⟩ true,
      .leave ⟨0,1⟩ 0 (some [47,97]) (true,true),.enter ⟨0,0⟩ true,.leave ⟨0,0⟩ 0 (some [47,97]) (true,true)]
    let given := (worldMachine fun _ => siteName).outputs (worldInit fun _ => siteEpoch) events
    (.minted ⟨0,1⟩ ⟨0,[47,97],generationEncode siteName siteEpoch 2 [47,97]⟩ ∈ given) ∧
    ∀ later, .minted ⟨0,0⟩ later ∈ given → later.ns = 0 → later.logical = [47,97] →
      later.encoded = generationEncode siteName siteEpoch 1 [47,97] :=
  ⟨by decide,((requestOneGeneration (fun _ => siteName) (fun _ => siteEpoch)).1 [.enter ⟨0,0⟩ true]
    (.leave ⟨0,0⟩ 0 (some [47,97]) (true,true))
    [.invalidate 0 ⟨[47,42],false,none,true,[some 8]⟩,.enter ⟨0,1⟩ true,
      .leave ⟨0,1⟩ 0 (some [47,97]) (true,true),.enter ⟨0,0⟩ true,.leave ⟨0,0⟩ 0 (some [47,97]) (true,true)]
    ⟨0,0⟩ ⟨0,[47,97],generationEncode siteName siteEpoch 1 [47,97]⟩ (by decide)
    (fun _ given => absurd given List.not_mem_nil)).2⟩

end CachePurge
