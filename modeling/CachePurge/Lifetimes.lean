import CachePurge.GenerationRuns
import CachePurge.Namespaces

/-! Namespaces over the life of the server: masters that start, are reconfigured and stop,
while requests are given keys and invalidations are published. A zone is numbered by its
birth, and lives on through every new cycle of its master. -/
namespace CachePurge
open General

structure Server where
  births : List Birth
  world : World
  masters : Nat → Option Cycle

def nameOf (births : List Birth) (n : Nat) : Name := (births[n]?.map Birth.name).getD siteName

def epochOf (births : List Birth) (n : Nat) : Epoch := (births[n]?.map Birth.epoch).getD siteEpoch

def lifeInit : Server := ⟨[],worldInit fun _ => siteEpoch,fun _ => none⟩

/- The zone in which the processes of a master look for a namespace. -/
def Server.zoneOf (s : Server) (m : Nat) (name : Name) : Option Nat :=
  (s.masters m).bind fun cycle =>
    (cycle.spaces.find? fun b => b.space.name == name).map fun b => b.shared.birth

inductive LifeEvent where
  | configure (m : Nat) (conf : Configuration)
  | stop (m : Nat)
  | invalidate (m : Nat) (name : Name) (call : Invalidation)
  | enter (r : Request) (granted : Bool)
  | leave (m : Nat) (name : Name) (r : Request) (value : Option Bytes) (room : Bool × Bool)

inductive LifeOutput where
  | configured (m : Nat) (error : Option NamespaceError)
  | minted (m : Nat) (name : Name) (r : Request) (snap : Snapshot)
  | answered (m : Nat) (name : Name) (call : Invalidation) (rc : Rc)
  deriving DecidableEq, Repr

def Server.call (s : Server) (m : Nat) (name : Name) (e : Nat → KeyEvent) : Server × List LifeOutput :=
  match s.zoneOf m name with
  | none => (s,[])
  | some ns =>
    let outcome := s.world.step (nameOf s.births) (e ns)
    ({s with world := outcome.1},outcome.2.map fun
      | .minted r snap => .minted m name r snap
      | .answered _ call rc => .answered m name call rc)

/- A master without a cycle starts, one with a cycle reloads. -/
def Server.step (pagesize : Nat) (s : Server) : LifeEvent → Server × List LifeOutput
  | .configure m conf =>
    let outcome := configure pagesize s.births (s.masters m) conf
    let zones := fun n => if n < s.births.length then s.world.zones n else generationInit (epochOf outcome.2 n)
    match outcome.1 with
    | .error e => ({s with births := outcome.2, world := {s.world with zones := zones}},[.configured m (some e)])
    | .ok cycle => (⟨outcome.2,{s.world with zones := zones},Function.update s.masters m (some cycle)⟩,
        [.configured m none])
  | .stop m => ({s with masters := Function.update s.masters m none},[])
  | .invalidate m name call => s.call m name fun ns => .invalidate ns call
  | .enter r granted => ({s with world := (s.world.step (nameOf s.births) (.enter r granted)).1},[])
  | .leave m name r value room => s.call m name fun ns => .leave r ns value room

def serverMachine (pagesize : Nat) : Machine Server LifeEvent LifeOutput := ⟨Server.step pagesize⟩

@[simp] theorem lifeStep (pagesize : Nat) (s : Server) (e : LifeEvent) :
    (serverMachine pagesize).step s e = s.step pagesize e := rfl

structure Server.Valid (s : Server) : Prop where
  world : s.world.Valid (nameOf s.births) (epochOf s.births)
  held : ∀ r, ∀ snap ∈ s.world.snapshots r, snap.ns < s.births.length
  distinct : Distinct s.births
  cycles : ∀ m, ∀ cycle ∈ s.masters m, cycle.Valid s.births
  apart : ∀ m m', ∀ cycle ∈ s.masters m, ∀ cycle' ∈ s.masters m', ∀ b ∈ cycle.spaces, ∀ b' ∈ cycle'.spaces,
    b.shared.birth = b'.shared.birth → m = m'

theorem lifeInitValid : lifeInit.Valid := by
  refine ⟨?_,fun r snap member => ?_,List.Pairwise.nil,nofun,nofun⟩
  · exact initValid (nameOf []) (epochOf [])
  · simp [lifeInit,World.snapshots,worldInit,Pool.snapshots,Pool.context] at member

theorem nameBorn {births : List Birth} {n : Nat} {b : Birth} (born : births[n]? = some b) :
    nameOf births n = b.name := by simp [nameOf,born]

theorem epochBorn {births : List Birth} {n : Nat} {b : Birth} (born : births[n]? = some b) :
    epochOf births n = b.epoch := by simp [epochOf,born]

theorem bornBelow {births : List Birth} {n : Nat} (bound : n < births.length) : ∃ b, births[n]? = some b :=
  ⟨_,List.getElem?_eq_getElem bound⟩

theorem namesLater {births births' : List Birth} (grows : births <+: births') {n : Nat}
    (bound : n < births.length) : nameOf births' n = nameOf births n ∧ epochOf births' n = epochOf births n := by
  obtain ⟨b,born⟩ := bornBelow bound
  have later := birthLater grows born
  exact ⟨by rw [nameBorn born,nameBorn later],by rw [epochBorn born,epochBorn later]⟩

theorem zoneBound {s : Server} {m : Nat} {name : Name} {n : Nat} (found : s.zoneOf m name = some n) :
    ∃ cycle ∈ s.masters m, ∃ b ∈ cycle.spaces, b.space.name = name ∧ b.shared.birth = n := by
  obtain ⟨cycle,running,found⟩ := Option.bind_eq_some_iff.mp found
  obtain ⟨b,here,same⟩ := Option.map_eq_some_iff.mp found
  exact ⟨cycle,running,b,List.mem_of_find?_eq_some here,by simpa using List.find?_some here,same⟩

theorem boundZone {s : Server} (valid : s.Valid) {m : Nat} {cycle : Cycle} (running : cycle ∈ s.masters m)
    {b : Bound} (member : b ∈ cycle.spaces) : s.zoneOf m b.space.name = some b.shared.birth := by
  unfold Server.zoneOf
  rw [Option.mem_def.mp running,Option.bind_some]
  cases found : cycle.spaces.find? fun o => o.space.name == b.space.name with
  | none => simpa using List.find?_eq_none.mp found b member
  | some o =>
    have same : o.space.name = b.space.name := by simpa using List.find?_some found
    rw [spaceOf (valid.cycles m cycle running) (List.mem_of_find?_eq_some found) member same]
    rfl

theorem zoneBorn {s : Server} (valid : s.Valid) {m : Nat} {name : Name} {n : Nat}
    (found : s.zoneOf m name = some n) : n < s.births.length ∧ nameOf s.births n = name := by
  obtain ⟨cycle,running,b,member,rfl,rfl⟩ := zoneBound found
  obtain ⟨epoch,born⟩ := (valid.cycles m cycle running).born b member
  exact ⟨(List.getElem?_eq_some_iff.mp born).1,nameBorn born⟩

theorem leaveNamespace {name : Name} {ns : Nat} {z : Zone} {value : Option Bytes} {room : Bool × Bool}
    {ctx : RequestContext} {snap : Snapshot}
    (given : (generationKeyLeave name ns z value room ctx).2.1 = some snap) : snap.ns = ns := by
  unfold generationKeyLeave at given
  cases value with
  | none => simp at given
  | some key =>
    simp only [] at given
    split at given <;> try contradiction
    split at given
    · rename_i old found
      cases Option.some.inj given
      have same := List.find?_some found
      simp only [Bool.and_eq_true,beq_iff_eq] at same
      exact same.1
    · split at given <;> try contradiction
      split at given <;> try contradiction
      cases Option.some.inj given
      rfl

theorem mintedNamespace {names : Nat → Name} {w : World} {r q : Request} {ns : Nat} {value : Option Bytes}
    {room : Bool × Bool} {snap : Snapshot}
    (minted : .minted r snap ∈ (w.step names (.leave q ns value room)).2) : r = q ∧ snap.ns = ns := by
  simp only [World.step] at minted
  split at minted
  · simp at minted
  · split at minted
    · simp only [Option.mem_toList,Option.map_eq_some_iff,KeyOutput.minted.injEq] at minted
      obtain ⟨given,made,rfl,rfl⟩ := minted
      exact ⟨rfl,leaveNamespace made⟩
    · simp at minted

/- What one step of the server does to the world: it leaves the zones that were born alone,
or it is a step of the world in a zone of a running master. -/
inductive WorldChange (s s' : Server) : Prop where
  | kept (births : s'.births = s.births) (world : s'.world = s.world)
  | cycled (births : s.births <+: s'.births) (pools : s'.world.pools = s.world.pools)
      (zones : ∀ n, s'.world.zones n =
        if n < s.births.length then s.world.zones n else generationInit (epochOf s'.births n))
  | entered (births : s'.births = s.births) (r : Request) (granted : Bool)
      (world : s'.world = (s.world.step (nameOf s.births) (.enter r granted)).1)
  | called (births : s'.births = s.births) {m : Nat} {name : Name} {ns : Nat}
      (found : s.zoneOf m name = some ns) (e : KeyEvent)
      (shape : (∃ call, e = .invalidate ns call) ∨ ∃ r value room, e = .leave r ns value room)
      (world : s'.world = (s.world.step (nameOf s.births) e).1)

theorem callChange {s : Server} (m : Nat) (name : Name) {e : Nat → KeyEvent}
    (shape : ∀ ns, (∃ call, e ns = .invalidate ns call) ∨ ∃ r value room, e ns = .leave r ns value room) :
    WorldChange s (s.call m name e).1 := by
  unfold Server.call
  split
  · exact .kept rfl rfl
  · rename_i ns found
    exact .called rfl found (e ns) (shape ns) rfl

theorem stepChange (pagesize : Nat) (s : Server) (e : LifeEvent) : WorldChange s (s.step pagesize e).1 := by
  cases e with
  | configure m conf =>
    have grows := (configureExtends pagesize s.births (s.masters m) conf).grows
    simp only [Server.step]
    split
    · exact .cycled grows rfl fun _ => rfl
    · exact .cycled grows rfl fun _ => rfl
  | stop m => exact .kept rfl rfl
  | invalidate m name call => exact callChange m name fun ns => .inl ⟨call,rfl⟩
  | enter r granted => exact .entered rfl r granted rfl
  | leave m name r value room => exact callChange m name fun ns => .inr ⟨r,value,room,rfl⟩

theorem stepCycles (pagesize : Nat) (s : Server) (e : LifeEvent) :
    Extends s.births (s.step pagesize e).1.births ∧ ((s.step pagesize e).1.masters = s.masters ∨
      (∃ m, e = .stop m ∧ (s.step pagesize e).1.masters = Function.update s.masters m none) ∨
      ∃ m conf cycle, e = .configure m conf ∧
        configure pagesize s.births (s.masters m) conf = (.ok cycle,(s.step pagesize e).1.births) ∧
        (s.step pagesize e).1.masters = Function.update s.masters m (some cycle)) := by
  cases e with
  | configure m conf =>
    have more := configureExtends pagesize s.births (s.masters m) conf
    simp only [Server.step]
    split
    · exact ⟨more,.inl rfl⟩
    · rename_i cycle ok
      exact ⟨more,.inr (.inr ⟨m,conf,cycle,rfl,Prod.ext ok rfl,rfl⟩)⟩
  | stop m => exact ⟨extendsRefl _,.inr (.inl ⟨m,rfl,rfl⟩)⟩
  | invalidate m name call =>
    simp only [Server.step,Server.call]
    split <;> exact ⟨extendsRefl _,.inl rfl⟩
  | enter r granted => exact ⟨extendsRefl _,.inl rfl⟩
  | leave m name r value room =>
    simp only [Server.step,Server.call]
    split <;> exact ⟨extendsRefl _,.inl rfl⟩

theorem worldLater {s : Server} (valid : s.Valid) {births : List Birth} {world : World}
    (grows : s.births <+: births) (pools : world.pools = s.world.pools)
    (zones : ∀ n, world.zones n =
      if n < s.births.length then s.world.zones n else generationInit (epochOf births n)) :
    world.Valid (nameOf births) (epochOf births) := by
  have same : ∀ r, world.snapshots r = s.world.snapshots r := fun r => by
    simp only [World.snapshots,pools]
  refine ⟨fun n => ?_,fun n => ?_,fun r snap member => ?_⟩
  · rw [zones n]
    split
    · exact valid.world.bounded n
    · exact initBounded _
  · rw [zones n]
    split
    · rename_i born
      rw [(namesLater grows born).2]
      exact valid.world.epoch n
    · rfl
  · rw [same] at member
    have born := valid.held r snap member
    obtain ⟨g,encoded,reached⟩ := valid.world.issued r snap member
    exact ⟨g,by rw [(namesLater grows born).1,(namesLater grows born).2]; exact encoded,
      by rw [zones snap.ns,if_pos born]; exact reached⟩

theorem heldCalled {s : Server} (valid : s.Valid) {m : Nat} {name : Name} {ns : Nat}
    (found : s.zoneOf m name = some ns) {e : KeyEvent}
    (shape : (∃ call, e = .invalidate ns call) ∨ ∃ r value room, e = .leave r ns value room)
    {r : Request} {snap : Snapshot} (member : snap ∈ (s.world.step (nameOf s.births) e).1.snapshots r) :
    snap.ns < s.births.length := by
  rcases stepSnapshots (nameOf s.births) member with old | ⟨minted,_⟩
  · exact valid.held r snap old
  · rcases shape with ⟨call,rfl⟩ | ⟨q,value,room,rfl⟩
    · simp [World.step] at minted
    · rw [(mintedNamespace minted).2]
      exact (zoneBorn valid found).1

theorem serverValid (pagesize : Nat) (s : Server) (e : LifeEvent) (valid : s.Valid) :
    (s.step pagesize e).1.Valid := by
  obtain ⟨more,masters⟩ := stepCycles pagesize s e
  have cycles : ∀ m, ∀ cycle ∈ (s.step pagesize e).1.masters m, cycle.Valid (s.step pagesize e).1.births := by
    intro m cycle running
    rcases masters with same | ⟨n,_,stopped⟩ | ⟨n,conf,made,_,ok,started⟩
    · exact cycleLater more.grows (valid.cycles m cycle (same ▸ running))
    · rw [stopped] at running
      by_cases here : m = n
      · subst n
        simp at running
      · rw [Function.update_of_ne here] at running
        exact cycleLater more.grows (valid.cycles m cycle running)
    · rw [started] at running
      by_cases here : m = n
      · subst n
        simp only [Function.update_self,Option.mem_def,Option.some.injEq] at running
        subst cycle
        exact (configured (valid.cycles m) ok).valid
      · rw [Function.update_of_ne here] at running
        exact cycleLater more.grows (valid.cycles m cycle running)
  refine ⟨?_,?_,more.distinct valid.distinct,cycles,?_⟩
  · cases stepChange pagesize s e with
    | kept births world =>
      rw [births,world]
      exact valid.world
    | cycled births pools zones => exact worldLater valid births pools zones
    | entered births r granted world =>
      rw [births,world]
      exact stepValid s.world (.enter r granted) valid.world
    | called births found e shape world =>
      rw [births,world]
      exact stepValid s.world e valid.world
  · intro r snap member
    cases stepChange pagesize s e with
    | kept births world =>
      rw [births]
      rw [world] at member
      exact valid.held r snap member
    | cycled births pools zones =>
      rw [World.snapshots,pools] at member
      exact (valid.held r snap member).trans_le births.length_le
    | entered births q granted world =>
      rw [births]
      rw [world] at member
      rcases stepSnapshots (nameOf s.births) member with old | ⟨minted,_⟩
      · exact valid.held r snap old
      · simp [World.step] at minted
    | called births found e shape world =>
      rw [births]
      rw [world] at member
      exact heldCalled valid found shape member
  · intro m m' cycle running cycle' running' b member b' member' same
    rcases masters with kept | ⟨n,_,stopped⟩ | ⟨n,conf,made,_,ok,started⟩
    · rw [kept] at running running'
      exact valid.apart m m' cycle running cycle' running' b member b' member' same
    · have still : ∀ q c, c ∈ (s.step pagesize e).1.masters q → c ∈ s.masters q := by
        intro q c here
        rw [stopped,Function.update_apply] at here
        split at here <;> simp_all
      exact valid.apart m m' cycle (still m cycle running) cycle' (still m' cycle' running') b member b' member' same
    · have fresh := configured (valid.cycles n) ok
      -- A bound of another master was born already; one of n is an old one of n or was not.
      have owner : ∀ q c, c ∈ (s.step pagesize e).1.masters q → ∀ b ∈ c.spaces,
          (∃ o ∈ s.masters q, b ∈ o.spaces) ∨ (q = n ∧ s.births.length ≤ b.shared.birth) := by
        intro q c here b inside
        rw [started,Function.update_apply] at here
        split at here
        · rename_i same
          subst q
          cases Option.some.inj here
          exact (fresh.since b inside).imp id fun since => ⟨rfl,since⟩
        · exact .inl ⟨c,here,inside⟩
      have below : ∀ q, ∀ o ∈ s.masters q, ∀ b ∈ o.spaces, b.shared.birth < s.births.length := by
        intro q o here b inside
        obtain ⟨_,born⟩ := (valid.cycles q o here).born b inside
        exact (List.getElem?_eq_some_iff.mp born).1
      rcases owner m cycle running b member with ⟨o,here,inside⟩ | ⟨rfl,since⟩
      · rcases owner m' cycle' running' b' member' with ⟨o',here',inside'⟩ | ⟨rfl,since'⟩
        · exact valid.apart m m' o here o' here' b inside b' inside' same
        · exact absurd (below m o here b inside) (by omega)
      · rcases owner m' cycle' running' b' member' with ⟨o',here',inside'⟩ | ⟨rfl,_⟩
        · exact absurd (below m' o' here' b' inside') (by omega)
        · rfl

end CachePurge
