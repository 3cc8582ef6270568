import CachePurge.Lifetimes
import Mathlib.Data.List.Induction

/-! What a purge of a namespace reaches over the life of the server. No reload and no
restart brings back a key of before it, as long as the state directory is kept; and
nothing but a purge or a full restart takes a key away. -/
namespace CachePurge
open General

section runs
variable {pagesize : Nat}

theorem serverRun {s : Server} (valid : s.Valid) (events : List LifeEvent) :
    ((serverMachine pagesize).after s events).Valid :=
  (serverMachine pagesize).invariant (serverValid pagesize) valid events

structure Lasting (s s' : Server) : Prop where
  births : s.births <+: s'.births
  zones : ∀ n < s.births.length, ∀ bounded, Moved (s.world.zones n) (s'.world.zones n) bounded

theorem lastingRefl (s : Server) : Lasting s s := ⟨List.prefix_rfl,fun _ _ bounded => movedRefl bounded⟩

theorem lastingTrans {a b c : Server} (left : Lasting a b) (right : Lasting b c) : Lasting a c :=
  ⟨left.births.trans right.births,fun n born bounded =>
    movedTrans (left.zones n born bounded) (right.zones n (born.trans_le left.births.length_le) _)⟩

theorem stepLasting (s : Server) (e : LifeEvent) : Lasting s (s.step pagesize e).1 := by
  cases stepChange pagesize s e with
  | kept births world => exact ⟨by rw [births],fun n _ bounded => by rw [world]; exact movedRefl bounded⟩
  | cycled births pools zones =>
    refine ⟨births,fun n born bounded => ?_⟩
    rw [zones n,if_pos born]
    exact movedRefl bounded
  | entered births r granted world =>
    exact ⟨by rw [births],fun n _ bounded => by rw [world]; exact stepMoved _ _ _ n bounded⟩
  | called births found e shape world =>
    exact ⟨by rw [births],fun n _ bounded => by rw [world]; exact stepMoved _ _ _ n bounded⟩

theorem runLasting {s : Server} (valid : s.Valid) (events : List LifeEvent) :
    Lasting s ((serverMachine pagesize).after s events) :=
  (serverMachine pagesize).later (serverValid pagesize) lastingRefl lastingTrans
    (fun s e _ => stepLasting s e) valid events

structure Handed (s : Server) (name : Name) (snap : Snapshot) : Prop where
  born : snap.ns < s.births.length
  named : nameOf s.births snap.ns = name
  issued : Issued (nameOf s.births) (epochOf s.births) s.world snap

theorem handedLater {s s' : Server} (valid : s.Valid) (lasting : Lasting s s') {name : Name} {snap : Snapshot}
    (handed : Handed s name snap) : Handed s' name snap := by
  obtain ⟨names,epochs⟩ := namesLater lasting.births handed.born
  obtain ⟨g,encoded,reached⟩ := handed.issued
  refine ⟨handed.born.trans_le lasting.births.length_le,names.trans handed.named,g,?_,?_⟩
  · rw [names,epochs]
    exact encoded
  · exact reached.trans (lookupGrows (lasting.zones snap.ns handed.born (valid.world.bounded snap.ns)) _)

theorem mintedStep {s : Server} {e : LifeEvent} {m : Nat} {name : Name} {r : Request} {snap : Snapshot}
    (minted : .minted m name r snap ∈ (s.step pagesize e).2) : s.zoneOf m name = some snap.ns ∧
      snap ∈ (s.step pagesize e).1.world.snapshots r ∧ (s.step pagesize e).1.births = s.births ∧
      (s.step pagesize e).1.masters = s.masters := by
  have called : ∀ {f : Nat → KeyEvent}, (∀ ns, (∃ call, f ns = .invalidate ns call) ∨
      ∃ r value room, f ns = .leave r ns value room) → ∀ {m' name'},
      .minted m name r snap ∈ (s.call m' name' f).2 → s.zoneOf m name = some snap.ns ∧
        snap ∈ (s.call m' name' f).1.world.snapshots r ∧ (s.call m' name' f).1.births = s.births ∧
        (s.call m' name' f).1.masters = s.masters := by
    intro f shape m' name' minted
    unfold Server.call at minted ⊢
    split at minted
    · simp at minted
    · rename_i ns found
      simp only [List.mem_map] at minted
      obtain ⟨o,emitted,same⟩ := minted
      cases o with
      | answered ns' call rc => simp at same
      | minted q given =>
        simp only [LifeOutput.minted.injEq] at same
        obtain ⟨rfl,rfl,rfl,rfl⟩ := same
        have held := stepMinted (nameOf s.births) emitted
        rcases shape ns with ⟨call,event⟩ | ⟨r,value,room,event⟩
        · rw [event] at emitted
          simp [World.step] at emitted
        · rw [event] at emitted held
          simp only [found,event]
          exact ⟨by rw [(mintedNamespace emitted).2],held,trivial,trivial⟩
  cases e with
  | configure m conf =>
    simp only [Server.step] at minted
    split at minted <;> simp at minted
  | stop m => simp [Server.step] at minted
  | invalidate m' name' call => exact called (fun ns => .inl ⟨call,rfl⟩) minted
  | enter q granted => simp [Server.step] at minted
  | leave m' name' q value room => exact called (fun ns => .inr ⟨q,value,room,rfl⟩) minted

theorem runHanded {s : Server} (valid : s.Valid) (events : List LifeEvent) {m : Nat} {name : Name} {r : Request}
    {snap : Snapshot} (minted : .minted m name r snap ∈ (serverMachine pagesize).outputs s events) :
    Handed ((serverMachine pagesize).after s events) name snap := by
  refine (serverMachine pagesize).history (P := Server.Valid)
    (Q := fun o s => ∀ m name r snap, o = .minted m name r snap → Handed s name snap)
    (serverValid pagesize) ?_ ?_ valid events _ minted m name r snap rfl
  · rintro s e valid o emitted m name r snap rfl
    obtain ⟨found,held,births,_⟩ := mintedStep emitted
    obtain ⟨born,named⟩ := zoneBorn valid found
    have next := (serverValid pagesize s e valid).world.issued r snap held
    exact ⟨by simpa only [lifeStep,births] using born,by simpa only [lifeStep,births] using named,next⟩
  · rintro s e o valid handed m name r snap same
    exact handedLater valid (stepLasting s e) (handed m name r snap same)

theorem heldSince {s : Server} (valid : s.Valid) {events : List LifeEvent} {r : Request} {snap : Snapshot}
    (held : snap ∈ ((serverMachine pagesize).after s events).world.snapshots r) :
    snap ∈ s.world.snapshots r ∨ ∃ front e rest, events = front ++ e :: rest ∧
      let t := (serverMachine pagesize).after s front
      snap.ns < t.births.length ∧ snap.encoded = generationEncode (nameOf t.births snap.ns)
        (t.world.zones snap.ns).shared.epoch
        (generationLookup (t.world.zones snap.ns).shared snap.logical) snap.logical := by
  induction events using List.reverseRecOn with
  | nil => exact .inl held
  | append_singleton events e ih =>
    by_cases before : snap ∈ ((serverMachine pagesize).after s events).world.snapshots r
    · rcases ih before with old | ⟨front,e',rest,rfl,new⟩
      · exact .inl old
      · exact .inr ⟨front,e',rest ++ [e],by simp,new⟩
    · right
      rw [Machine.afterLast,lifeStep] at held
      cases stepChange pagesize ((serverMachine pagesize).after s events) e with
      | kept births world => exact absurd (world ▸ held) before
      | cycled births pools zones =>
        rw [World.snapshots,pools] at held
        exact absurd held before
      | entered births q granted world =>
        rw [world] at held
        rcases stepSnapshots _ held with old | ⟨minted,_⟩
        · exact absurd old before
        · simp [World.step] at minted
      | called births found e' shape world =>
        rw [world] at held
        rcases stepSnapshots _ held with old | ⟨minted,_,encoded⟩
        · exact absurd old before
        · exact ⟨events,e,[],rfl,heldCalled (serverRun valid events) found shape held,encoded⟩

theorem zoneSince {s : Server} (valid : s.Valid) {m : Nat} {name : Name} {e : LifeEvent} {n : Nat}
    (found : (s.step pagesize e).1.zoneOf m name = some n) :
    s.zoneOf m name = some n ∨ s.births.length ≤ n := by
  obtain ⟨cycle,running,b,member,rfl,rfl⟩ := zoneBound found
  rcases (stepCycles pagesize s e).2 with same | ⟨m',_,stopped⟩ | ⟨m',conf,made,_,ok,started⟩
  · exact .inl (boundZone valid (same ▸ running) member)
  · rw [stopped,Function.update_apply] at running
    split at running
    · simp at running
    · exact .inl (boundZone valid running member)
  · rw [started,Function.update_apply] at running
    split at running
    · rename_i here
      subst here
      cases Option.some.inj running
      rcases (configured (valid.cycles m) ok).since b member with ⟨o,before,inside⟩ | since
      · exact .inl (boundZone valid before inside)
      · exact .inr since
    · exact .inl (boundZone valid running member)

theorem runZoneSince {s : Server} (valid : s.Valid) {m : Nat} {name : Name} (events : List LifeEvent) {n : Nat}
    (found : ((serverMachine pagesize).after s events).zoneOf m name = some n) :
    s.zoneOf m name = some n ∨ s.births.length ≤ n := by
  let Since (s' : Server) : Prop := s'.Valid ∧ s.births.length ≤ s'.births.length ∧
    ∀ n, s'.zoneOf m name = some n → s.zoneOf m name = some n ∨ s.births.length ≤ n
  have kept : ∀ s' e, Since s' → Since (s'.step pagesize e).1 := by
    rintro s' e ⟨valid',more,since⟩
    have lasting : Lasting s' (s'.step pagesize e).1 := stepLasting s' e
    refine ⟨serverValid pagesize s' e valid',more.trans lasting.births.length_le,fun n found => ?_⟩
    rcases zoneSince valid' found with before | born
    · exact since n before
    · exact .inr (more.trans born)
  exact ((serverMachine pagesize).invariant kept ⟨valid,le_rfl,fun _ found => .inl found⟩ events).2.2 n found

section purge
variable {s : Server} (valid : s.Valid) {m : Nat} {name : Name} {i : Nat} (found : s.zoneOf m name = some i)
  {call : Invalidation}
include valid found

theorem purgeStep : (s.step pagesize (.invalidate m name call)).1 =
    {s with world := {s.world with
      zones := Function.update s.world.zones i (generationInvalidate name call (s.world.zones i)).2}} := by
  simp only [Server.step,Server.call,found,World.step,(zoneBorn valid found).2]

theorem overtakenKey (ok : (generationInvalidate name call (s.world.zones i)).1 = .ok) {t : Server}
    (later : t.Valid) (lasting : Lasting (s.step pagesize (.invalidate m name call)).1 t)
    {snap : Snapshot} (handed : Handed s name snap) (selects : call.selects snap.logical)
    {j : Nat} (since : j = i ∨ s.births.length ≤ j) (born : j < t.births.length)
    (path : ∀ b ∈ t.births[snap.ns]?, ∀ b' ∈ t.births[j]?, b.statePath = b'.statePath) :
    generationStale name (t.world.zones j) snap.encoded = .ok := by
  have step := @purgeStep pagesize s valid m name i found call
  have births : s.births <+: t.births := by simpa only [step] using lasting.births
  obtain ⟨g,encoded,reached⟩ := handed.issued
  have decoded := decodeEncode name (epochOf s.births snap.ns) g snap.logical
  rw [handed.named] at encoded
  rw [← encoded] at decoded
  refine staleKey.mpr ⟨_,decoded,?_⟩
  rw [later.world.epoch j]
  by_cases same : snap.ns = j
  · right
    have here : j = i := by
      have bound := handed.born
      omega
    subst here
    have accepted := invalidateAccepted (valid.world.bounded j) ok
    have moved := lasting.zones j (by rw [step]; exact (zoneBorn valid found).1)
      ((serverValid pagesize s (.invalidate m name call) valid).world.bounded j)
    have stamped := VersionTable.stampedAbove accepted.publishes (selectsCovers selects (s.world.zones j))
    have grown := lookupGrows moved snap.logical
    simp only [step,Function.update_self] at grown
    have bound := UInt64.le_iff_toNat_le.mp (lookupBounded (valid.world.bounded j) snap.logical)
    rw [same] at reached
    exact UInt64.lt_iff_toNat_lt.mpr (((reached.trans bound).trans_lt stamped).trans_le grown)
  · left
    obtain ⟨b,bornAt⟩ := bornBelow handed.born
    obtain ⟨b',bornAt'⟩ := bornBelow born
    have bornAt := birthLater births bornAt
    have apart := distinctBirths later.distinct bornAt bornAt' same (path b bornAt b' bornAt')
    rw [← (namesLater births handed.born).2,epochBorn bornAt,epochBorn bornAt']
    intro bytes
    refine apart ?_
    obtain ⟨_,_,⟨e,_,_⟩⟩ := b
    obtain ⟨_,_,⟨e',_,_⟩⟩ := b'
    simpa using bytes

theorem zoneAfter {events : List LifeEvent} {j : Nat}
    (bound : ((serverMachine pagesize).after (s.step pagesize (.invalidate m name call)).1 events).zoneOf m name = some j) :
    j = i ∨ s.births.length ≤ j := by
  have step := @purgeStep pagesize s valid m name i found call
  rcases runZoneSince (serverValid pagesize s (.invalidate m name call) valid) events bound with before | born
  · rw [step] at before
    exact .inl (Option.some.inj (before.symm.trans found))
  · rw [step] at born
    exact .inr born

section kept
variable (ok : (generationInvalidate name call (s.world.zones i)).1 = .ok)
  {snap : Snapshot} (handed : Handed s name snap) (selects : call.selects snap.logical) {path : Bytes}
include ok handed selects

theorem staleAfter {events : List LifeEvent} (kept : ∀ b ∈ ((serverMachine pagesize).after
      (s.step pagesize (.invalidate m name call)).1 events).births, b.name = name → b.statePath = path)
    {j : Nat} (since : j = i ∨ s.births.length ≤ j) (born : j < ((serverMachine pagesize).after
      (s.step pagesize (.invalidate m name call)).1 events).births.length)
    (named : nameOf ((serverMachine pagesize).after (s.step pagesize (.invalidate m name call)).1 events).births j = name) :
    generationStale name (((serverMachine pagesize).after
      (s.step pagesize (.invalidate m name call)).1 events).world.zones j) snap.encoded = .ok := by
  have next := serverValid pagesize s (.invalidate m name call) valid
  have lasting := @runLasting pagesize _ next events
  refine overtakenKey valid found ok (serverRun next events) lasting handed selects since born ?_
  have listed : ∀ n c, ((serverMachine pagesize).after (s.step pagesize (.invalidate m name call)).1 events).births[n]? =
      some c → nameOf ((serverMachine pagesize).after (s.step pagesize (.invalidate m name call)).1 events).births n = name →
      c.statePath = path := by
    intro n c bornAt named
    refine kept c (List.mem_of_getElem? bornAt) ?_
    rw [← nameBorn bornAt,named]
  intro b bornAt b' bornAt'
  have handed' := handedLater valid (lastingTrans (stepLasting _ _) lasting) handed
  rw [listed _ b bornAt handed'.named,listed _ b' bornAt' named]

theorem heldOther {events : List LifeEvent} (kept : ∀ b ∈ ((serverMachine pagesize).after
      (s.step pagesize (.invalidate m name call)).1 events).births, b.name = name → b.statePath = path)
    {r : Request} {snap' : Snapshot}
    (held : snap' ∈ ((serverMachine pagesize).after (s.step pagesize (.invalidate m name call)).1 events).world.snapshots r)
    (bound : ((serverMachine pagesize).after (s.step pagesize (.invalidate m name call)).1 events).zoneOf m name =
      some snap'.ns)
    (first : ∀ old ∈ s.world.snapshots r, ¬ (old.ns = snap'.ns ∧ old.logical = snap'.logical)) :
    snap'.encoded ≠ snap.encoded := by
  intro same
  have next := serverValid pagesize s (.invalidate m name call) valid
  rcases heldSince next held with old | ⟨front,e,rest,rfl,born,encoded⟩
  · rw [purgeStep valid found] at old
    exact first snap' old ⟨rfl,rfl⟩
  · -- The key was new in a state where the old key was stale already.
    have lasting := @runLasting pagesize _ (@serverRun pagesize _ next front) (e :: rest)
    rw [← Machine.afterAppend] at lasting
    have named : nameOf ((serverMachine pagesize).after (s.step pagesize (.invalidate m name call)).1 front).births
        snap'.ns = name := by
      rw [← (namesLater lasting.births born).1]
      exact (zoneBorn (serverRun next (front ++ e :: rest)) bound).2
    have judged := staleAfter valid found ok handed selects
      (fun b member => kept b (lasting.births.mem member)) (zoneAfter valid found bound) born named
    rw [named] at encoded
    rw [← same,(verdicts encoded).2] at judged
    exact absurd judged (UInt64.lt_irrefl _)

theorem mintedOther {back : List LifeEvent} (kept : ∀ b ∈ ((serverMachine pagesize).after
      (s.step pagesize (.invalidate m name call)).1 back).births, b.name = name → b.statePath = path)
    {r : Request} {snap' : Snapshot} (minted : .minted m name r snap' ∈ (serverMachine pagesize).outputs
      (s.step pagesize (.invalidate m name call)).1 back)
    (first : ∀ old ∈ s.world.snapshots r, ¬ (old.ns = snap'.ns ∧ old.logical = snap'.logical)) :
    snap'.encoded ≠ snap.encoded := by
  have next := serverValid pagesize s (.invalidate m name call) valid
  obtain ⟨events,e,rest,rfl,emitted⟩ := (serverMachine pagesize).emittedAt minted
  obtain ⟨bound,held,_,masters⟩ := mintedStep emitted
  have lasting := @runLasting pagesize _ (@serverRun pagesize _ next (events ++ [e])) rest
  rw [← Machine.afterAppend,List.append_assoc] at lasting
  rw [← lifeStep,← Machine.afterLast] at held masters
  refine heldOther valid found ok handed selects (fun b member => kept b (lasting.births.mem member)) held ?_ first
  simpa only [Server.zoneOf,masters] using bound

end kept
end purge

/- A purge that was accepted reaches every key handed out under that namespace before it,
by whatever process, for good: through reloads, refused reloads and restarts it is stale
for the cleanup, and no request that asks afterwards is given it. -/
theorem purgeOutlives (pagesize : Nat) (front back : List LifeEvent) {m : Nat} {name : Name} {i : Nat}
    {call : Invalidation} (found : ((serverMachine pagesize).after lifeInit front).zoneOf m name = some i)
    (ok : (generationInvalidate name call
      (((serverMachine pagesize).after lifeInit front).world.zones i)).1 = .ok)
    {path : Bytes} (kept : ∀ b ∈ ((serverMachine pagesize).after lifeInit
      (front ++ .invalidate m name call :: back)).births, b.name = name → b.statePath = path)
    {m' : Nat} {r : Request} {snap : Snapshot}
    (before : .minted m' name r snap ∈ (serverMachine pagesize).outputs lifeInit front)
    (selects : call.selects snap.logical) :
    let purged := ((serverMachine pagesize).step ((serverMachine pagesize).after lifeInit front) (.invalidate m name call)).1
    (∀ j, ((serverMachine pagesize).after purged back).zoneOf m name = some j →
      generationStale name (((serverMachine pagesize).after purged back).world.zones j) snap.encoded = .ok) ∧
    ∀ r' snap', .minted m name r' snap' ∈ (serverMachine pagesize).outputs purged back →
      (∀ old ∈ ((serverMachine pagesize).after lifeInit front).world.snapshots r',
        ¬ (old.ns = snap'.ns ∧ old.logical = snap'.logical)) → snap'.encoded ≠ snap.encoded := by
  have valid := @serverRun pagesize _ lifeInitValid front
  have handed := runHanded lifeInitValid front before
  rw [Machine.afterAppend,Machine.afterCons] at kept
  refine ⟨fun j bound => ?_,fun r' snap' minted first => mintedOther valid found ok handed selects kept minted first⟩
  have born := zoneBorn (serverRun (serverValid pagesize _ _ valid) back) bound
  exact staleAfter valid found ok handed selects kept (zoneAfter valid found bound) born.1 born.2

theorem purgeOutlivesRestart :
    generationEncode siteName ⟨text "0000000002",by decide,by decide⟩ 1 [47,97] ≠
      generationEncode siteName siteEpoch 1 [47,97] :=
  (@purgeOutlives 4096
    [.configure 0 (siteSetup siteEpoch),.enter ⟨0,0⟩ true,.leave 0 siteName ⟨0,0⟩ (some [47,97]) (true,true)]
    [.stop 0,.configure 0 (siteSetup ⟨text "0000000002",by decide,by decide⟩),.enter ⟨1,0⟩ true,
      .leave 0 siteName ⟨1,0⟩ (some [47,97]) (true,true)]
    0 siteName 0 ⟨[47,42],false,none,true,[some 8]⟩ (by decide) (by decide) (text "/state") (by decide)
    0 ⟨0,0⟩ ⟨0,[47,97],generationEncode siteName siteEpoch 1 [47,97]⟩ (by decide) (by decide)).2
    ⟨1,0⟩ ⟨1,[47,97],generationEncode siteName ⟨text "0000000002",by decide,by decide⟩ 1 [47,97]⟩
    (by decide) (by decide)

theorem ownZone {s : Server} (valid : s.Valid) {m m' : Nat} {name name' : Name} {i : Nat}
    (found : s.zoneOf m name = some i) (found' : s.zoneOf m' name' = some i) : m = m' ∧ name = name' := by
  obtain ⟨cycle,running,b,member,_,birth⟩ := zoneBound found
  obtain ⟨cycle',running',b',member',_,birth'⟩ := zoneBound found'
  refine ⟨valid.apart m m' cycle running cycle' running' b member b' member' (birth.trans birth'.symm),?_⟩
  rw [← (zoneBorn valid found).2,← (zoneBorn valid found').2]

theorem leaveZones (names : Nat → Name) (w : World) (r : Request) (ns : Nat) (value : Option Bytes)
    (room : Bool × Bool) : (w.step names (.leave r ns value room)).1.zones = w.zones := by
  simp only [World.step]
  split
  · rfl
  · split <;> rfl

theorem zoneKept {s : Server} (valid : s.Valid) {m : Nat} {name : Name} {i : Nat}
    (found : s.zoneOf m name = some i) {e : LifeEvent} (running : e ≠ .stop m)
    (unpurged : ∀ call, .answered m name call .ok ∉ (s.step pagesize e).2) :
    (s.step pagesize e).1.zoneOf m name = some i ∧ (s.step pagesize e).1.world.zones i = s.world.zones i := by
  constructor
  · obtain ⟨cycle,before,b,member,rfl,rfl⟩ := zoneBound found
    have next := serverValid pagesize s e valid
    rcases (stepCycles pagesize s e).2 with same | ⟨m',rfl,stopped⟩ | ⟨m',conf,made,_,ok,started⟩
    · exact boundZone next (same ▸ before) member
    · refine @boundZone _ next _ cycle ?_ _ member
      rw [stopped,Function.update_of_ne (fun same => running (by rw [same]))]
      exact before
    · by_cases here : m = m'
      · subst here
        refine @boundZone _ next _ made (by rw [started,Function.update_self]; rfl) _ ?_
        exact (configured (valid.cycles m) ok).kept cycle before b member
      · refine @boundZone _ next _ cycle ?_ _ member
        rw [started,Function.update_of_ne here]
        exact before
  · have born := (zoneBorn valid found).1
    cases e with
    | configure m' conf =>
      simp only [Server.step]
      split <;> exact if_pos born
    | stop m' => rfl
    | invalidate m' name' call =>
      simp only [Server.step,Server.call] at unpurged ⊢
      split
      · rfl
      · rename_i ns found'
        simp only [found',World.step,List.map_cons,List.map_nil,List.mem_singleton,LifeOutput.answered.injEq] at unpurged ⊢
        by_cases here : i = ns
        · subst here
          obtain ⟨rfl,rfl⟩ := ownZone valid found found'
          rw [Function.update_self]
          rcases invalidateOutcome (nameOf s.births i) call (s.world.zones i) with ⟨_,same⟩ | ⟨ok,_⟩
          · exact same
          · exact absurd ⟨rfl,rfl,rfl,ok.symm⟩ (unpurged call)
        · exact Function.update_of_ne here ..
    | enter r granted => rfl
    | leave m' name' r value room =>
      simp only [Server.step,Server.call]
      split
      · rfl
      · simp only [leaveZones]

theorem runZoneKept {s : Server} (valid : s.Valid) {m : Nat} {name : Name} {i : Nat}
    (found : s.zoneOf m name = some i) {events : List LifeEvent} (running : .stop m ∉ events)
    (unpurged : ∀ call, .answered m name call .ok ∉ (serverMachine pagesize).outputs s events) :
    ((serverMachine pagesize).after s events).zoneOf m name = some i ∧
      ((serverMachine pagesize).after s events).world.zones i = s.world.zones i := by
  induction events generalizing s with
  | nil => exact ⟨found,rfl⟩
  | cons e rest ih =>
    simp only [List.mem_cons,not_or] at running
    have quiet : ∀ call, .answered m name call .ok ∉ (s.step pagesize e).2 :=
      fun call here => unpurged call (List.mem_append_left _ here)
    obtain ⟨bound,zone⟩ := zoneKept valid found (Ne.symm running.1) quiet
    obtain ⟨bound',zone'⟩ := ih (serverValid pagesize s e valid) bound running.2
      fun call here => unpurged call (List.mem_append_right _ here)
    exact ⟨bound',zone'.trans zone⟩

/- A namespace of a running master outlives every reload, accepted or refused, and whatever
else the server does: until an invalidation of it is accepted, every key keeps its verdicts,
and requests are given the keys they would have been given before. -/
theorem reloadKeepsKeys (pagesize : Nat) (front back : List LifeEvent) {m : Nat} {name : Name} {i : Nat}
    (found : ((serverMachine pagesize).after lifeInit front).zoneOf m name = some i)
    (running : .stop m ∉ back) (unpurged : ∀ call, .answered m name call .ok ∉
      (serverMachine pagesize).outputs ((serverMachine pagesize).after lifeInit front) back) :
    let s := (serverMachine pagesize).after lifeInit front
    let t := (serverMachine pagesize).after s back
    t.zoneOf m name = some i ∧
    (∀ key, generationCurrent name (t.world.zones i) key = generationCurrent name (s.world.zones i) key ∧
      generationStale name (t.world.zones i) key = generationStale name (s.world.zones i) key) ∧
    ∀ r snap, .minted m name r snap ∈ (serverMachine pagesize).outputs s back →
      (∀ old ∈ s.world.snapshots r, ¬ (old.ns = snap.ns ∧ old.logical = snap.logical)) →
      snap.encoded = generationEncode name (s.world.zones i).shared.epoch
        (generationLookup (s.world.zones i).shared snap.logical) snap.logical := by
  intro s t
  have valid : s.Valid := @serverRun pagesize _ lifeInitValid front
  obtain ⟨stays,zone⟩ := runZoneKept valid found running unpurged
  refine ⟨stays,fun key => by rw [zone]; exact ⟨rfl,rfl⟩,fun r snap minted first => ?_⟩
  obtain ⟨events,e,rest,rfl,emitted⟩ := (serverMachine pagesize).emittedAt minted
  have quiet : ∀ taken tail, events ++ e :: rest = taken ++ tail →
      ((serverMachine pagesize).after s taken).zoneOf m name = some i ∧
      ((serverMachine pagesize).after s taken).world.zones i = s.world.zones i := by
    intro taken tail cut
    rw [cut] at running unpurged
    refine runZoneKept valid found (fun here => running (List.mem_append_left _ here)) fun call here => unpurged call ?_
    rw [Machine.outputsAppend]
    exact List.mem_append_left _ here
  obtain ⟨bound,held,_,_⟩ := mintedStep emitted
  have here : snap.ns = i := Option.some.inj (bound.symm.trans (quiet events (e :: rest) rfl).1)
  rw [← lifeStep,← Machine.afterLast] at held
  rcases heldSince valid held with old | ⟨taken,e',rest',split,_,encoded⟩
  · exact absurd ⟨rfl,rfl⟩ (first snap old)
  · obtain ⟨bound',same⟩ := quiet taken (e' :: rest' ++ rest) (by rw [List.append_cons,split]; simp)
    rw [here,same,(zoneBorn (serverRun valid taken) bound').2] at encoded
    exact encoded

theorem reloadKeepsKeysSite :
    let zone := ((serverMachine 4096).after lifeInit [.configure 0 (siteSetup siteEpoch)]).world.zones 0
    generationEncode siteName siteEpoch 1 [47,97] =
      generationEncode siteName zone.shared.epoch (generationLookup zone.shared [47,97]) [47,97] :=
  (@reloadKeepsKeys 4096 [.configure 0 (siteSetup siteEpoch)]
    [.configure 0 (siteSetup siteEpoch),.configure 0 ⟨[],[],[],true⟩,.enter ⟨1,0⟩ true,
      .leave 0 siteName ⟨1,0⟩ (some [47,97]) (true,true)]
    0 siteName 0 (by decide) (by simp) (fun call here => by
      rw [show (serverMachine 4096).outputs ((serverMachine 4096).after lifeInit [.configure 0 (siteSetup siteEpoch)])
        [.configure 0 (siteSetup siteEpoch),.configure 0 ⟨[],[],[],true⟩,.enter ⟨1,0⟩ true,
          .leave 0 siteName ⟨1,0⟩ (some [47,97]) (true,true)] =
        [.configured 0 none,.configured 0 (some (.removed (namespaceZone siteName.bytes))),
          .minted 0 siteName ⟨1,0⟩ ⟨0,[47,97],generationEncode siteName siteEpoch 1 [47,97]⟩] by decide] at here
      simp at here)).2.2
    ⟨1,0⟩ ⟨0,[47,97],generationEncode siteName siteEpoch 1 [47,97]⟩ (by decide) (by decide)

theorem configureAnswer (s : Server) (m : Nat) (conf : Configuration) :
    .configured m none ∈ (s.step pagesize (.configure m conf)).2 ↔
      ∃ cycle, (configure pagesize s.births (s.masters m) conf).1 = .ok cycle := by
  simp only [Server.step]
  split
  · rename_i refused
    simp [refused]
  · rename_i accepted
    simp [accepted]

theorem configureBorn {s : Server} (valid : s.Valid) {m : Nat} {conf : Configuration} {name : Name} {i : Nat}
    (found : (s.step pagesize (.configure m conf)).1.zoneOf m name = some i) (since : s.births.length ≤ i) :
    ∃ path epoch, (s.step pagesize (.configure m conf)).1.births[i]? = some ⟨name,path,epoch⟩ ∧
      (s.step pagesize (.configure m conf)).1.world.zones i = generationInit epoch ∧
      ∀ b ∈ s.births, b.statePath = path → b.epoch ≠ epoch := by
  have next := serverValid pagesize s (.configure m conf) valid
  have lasting : Lasting s (s.step pagesize (.configure m conf)).1 := stepLasting s _
  obtain ⟨cycle,running,b,member,rfl,rfl⟩ := zoneBound found
  obtain ⟨epoch,born⟩ := (next.cycles m cycle running).born b member
  refine ⟨b.space.statePath,epoch,born,?_,fun old before path => ?_⟩
  · have same : epochOf (s.step pagesize (.configure m conf)).1.births b.shared.birth = epoch := epochBorn born
    rw [← same]
    simp only [Server.step]
    split <;> exact if_neg (not_lt.mpr since)
  · obtain ⟨j,at_⟩ := List.mem_iff_getElem?.mp before
    have below := (List.getElem?_eq_some_iff.mp at_).1
    exact distinctBirths next.distinct (birthLater lasting.births at_) born (by omega) path

/- A reload that the core grants is accepted exactly when its namespaces are well formed and
different, and every namespace of the old cycle is among them, of the same size and path.
Accepted or not, it leaves the zones there are as they were, and any other it binds is new. -/
theorem reloadAccepted (pagesize : Nat) (front : List LifeEvent) {m : Nat} {old : Cycle} {conf : Configuration}
    (running : ((serverMachine pagesize).after lifeInit front).masters m = some old)
    (granted : Granted ((serverMachine pagesize).after lifeInit front).births conf) :
    let s := (serverMachine pagesize).after lifeInit front
    let t := (s.step pagesize (.configure m conf)).1
    (.configured m none ∈ (s.step pagesize (.configure m conf)).2 ↔
      (conf.directives.map NamespaceDirective.name).Nodup ∧
      (∀ d ∈ conf.directives, (legalName d.name).isSome = true ∧ ∀ size ∈ d.parsed, 8 * pagesize ≤ size) ∧
      ∀ b ∈ old.spaces, ∃ d ∈ conf.directives, d.name = b.space.name.bytes ∧
        d.parsed = some b.space.size ∧ d.fullName = some b.space.statePath) ∧
    (∀ m' name i, s.zoneOf m' name = some i → t.zoneOf m' name = some i ∧ t.world.zones i = s.world.zones i) ∧
    ∀ name i, t.zoneOf m name = some i → s.zoneOf m name = some i ∨ ∃ path epoch,
      t.births[i]? = some ⟨name,path,epoch⟩ ∧ t.world.zones i = generationInit epoch ∧
      ∀ b ∈ s.births, b.statePath = path → b.epoch ≠ epoch := by
  intro s t
  have valid : s.Valid := @serverRun pagesize _ lifeInitValid front
  refine ⟨?_,fun m' name i found => ?_,fun name i found => ?_⟩
  · rw [configureAnswer,running]
    exact configureAccepts (valid.cycles m old running) granted
  · refine zoneKept valid found LifeEvent.noConfusion fun call answered => ?_
    simp only [Server.step] at answered
    split at answered <;> simp at answered
  · rcases zoneSince valid found with before | since
    · exact .inl before
    · exact .inr (configureBorn valid found since)

def joinedSetup : Configuration where
  directives := (siteSetup siteEpoch).directives ++
    [⟨text "more",text "64k",some 65536,true,some (text "/more"),true,true,true⟩]
  others := []
  zones := [⟨true,some ⟨text "0000000002",by decide,by decide⟩⟩,⟨true,some ⟨text "0000000003",by decide,by decide⟩⟩]
  accepted := true

theorem reloadAcceptedSite :
    let s := (serverMachine 4096).after lifeInit [.configure 0 (siteSetup siteEpoch)]
    .configured 0 none ∈ (s.step 4096 (.configure 0 joinedSetup)).2 ∧
      (s.step 4096 (.configure 0 joinedSetup)).1.zoneOf 0 siteName = some 0 := by
  have reload := @reloadAccepted 4096 [.configure 0 (siteSetup siteEpoch)] 0
    ⟨[⟨⟨siteName,65536,text "/state"⟩,⟨1,text "/state",0⟩⟩],[]⟩ joinedSetup (by decide)
    ⟨by decide,by decide,⟨by decide,by decide,by decide⟩,rfl⟩
  exact ⟨reload.1.mpr ⟨by decide,by decide,by decide⟩,(reload.2.1 0 siteName 0 (by decide)).1⟩

end runs
end CachePurge
