import CachePurge.General.Machine
import CachePurge.GenerationVersions

/-! Requests that mint keys while other processes invalidate. The complex value
of a location is evaluated between the entry and the exit of
ngx_http_cache_purge_generation_key, where anything else may run; a request keeps
the key it was given for as long as it lives. Requests are never confused with
one another: a finished request makes no more calls. -/
namespace CachePurge
open General

structure Snapshot where
  ns : Nat
  logical : Bytes
  encoded : Bytes
  deriving DecidableEq, Repr

structure RequestContext where
  request : Nat
  snapshots : List Snapshot
  evaluating : Bool
  deriving DecidableEq, Repr

abbrev Pool := List RequestContext

namespace Pool

def context (pool : Pool) (r : Nat) : Option RequestContext := pool.find? fun ctx => ctx.request == r

def store (pool : Pool) (ctx : RequestContext) : Pool :=
  pool.map fun old => if old.request == ctx.request then ctx else old

def snapshots (pool : Pool) (r : Nat) : List Snapshot :=
  ((pool.context r).map RequestContext.snapshots).getD []

end Pool

/- Up to the call of ngx_http_complex_value. -/
def generationKeyEnter (granted : Bool) (r : Nat) (pool : Pool) : Rc × Pool :=
  match pool.context r with
  | none => if granted then (.ok,⟨r,[],true⟩ :: pool) else (.error,pool)
  | some ctx => if ctx.evaluating then (.error,pool) else (.ok,pool.store {ctx with evaluating := true})

/- After it: value is its outcome, room the outcome of the two pool allocations. -/
def generationKeyLeave (name : Name) (ns : Nat) (z : Zone) (value : Option Bytes) (room : Bool × Bool)
    (ctx : RequestContext) : Rc × Option Snapshot × RequestContext :=
  let ctx := {ctx with evaluating := false}
  match value with
  | none => (.error,none,ctx)
  | some key =>
    if logicalKeyMax < key.length then (.declined,none,ctx)
    else match ctx.snapshots.find? fun snap => snap.ns == ns && snap.logical == key with
      | some snap => (.ok,some snap,ctx)
      | none =>
        if !room.1 then (.error,none,ctx)
        else if !room.2 then (.error,none,ctx)
        else
          let generation := generationLookup z.shared key
          let snap := ⟨ns,key,generationEncode name z.shared.epoch generation key⟩
          (.ok,some snap,{ctx with snapshots := snap :: ctx.snapshots})

structure Request where
  pool : Nat
  address : Nat
  deriving DecidableEq, Repr

structure World where
  zones : Nat → Zone
  pools : Nat → Pool

def World.snapshots (w : World) (r : Request) : List Snapshot := (w.pools r.pool).snapshots r.address

inductive KeyEvent where
  | invalidate (ns : Nat) (call : Invalidation)
  | enter (r : Request) (granted : Bool)
  | leave (r : Request) (ns : Nat) (value : Option Bytes) (room : Bool × Bool)

inductive KeyOutput where
  | minted (r : Request) (snap : Snapshot)
  | answered (ns : Nat) (call : Invalidation) (rc : Rc)
  deriving DecidableEq, Repr

section machine
variable (names : Nat → Name)

def World.step (w : World) : KeyEvent → World × List KeyOutput
  | .invalidate ns call =>
    let outcome := generationInvalidate (names ns) call (w.zones ns)
    ({w with zones := Function.update w.zones ns outcome.2},[.answered ns call outcome.1])
  | .enter r granted =>
    let pool := (generationKeyEnter granted r.address (w.pools r.pool)).2
    ({w with pools := Function.update w.pools r.pool pool},[])
  | .leave r ns value room =>
    match (w.pools r.pool).context r.address with
    | none => (w,[])
    | some ctx =>
      if ctx.evaluating then
        let outcome := generationKeyLeave (names ns) ns (w.zones ns) value room ctx
        let pool := (w.pools r.pool).store outcome.2.2
        ({w with pools := Function.update w.pools r.pool pool},
          (outcome.2.1.map (KeyOutput.minted r)).toList)
      else (w,[])

def worldMachine : Machine World KeyEvent KeyOutput := ⟨World.step names⟩

def worldInit (epochs : Nat → Epoch) : World := ⟨fun ns => generationInit (epochs ns),fun _ => []⟩

theorem contextStore {pool : Pool} {ctx : RequestContext} (r : Nat) :
    (pool.store ctx).context r = if ctx.request = r then (pool.context r).map fun _ => ctx
      else pool.context r := by
  induction pool with
  | nil => simp [Pool.store,Pool.context]
  | cons old rest ih =>
    simp only [Pool.store,Pool.context,List.map_cons,List.find?_cons] at ih ⊢
    by_cases both : old.request = ctx.request
    · by_cases mine : ctx.request = r
      · simp [both,mine]
      · rw [if_neg mine] at ih ⊢
        simpa [both,beq_false_of_ne mine] using ih
    · by_cases here : old.request = r
      · have apart : ctx.request ≠ r := fun same => both (here.trans same.symm)
        simp [here,apart,Ne.symm apart]
      · simpa [both,beq_false_of_ne here] using ih

theorem contextSource {pool : Pool} {r : Nat} {ctx : RequestContext}
    (found : pool.context r = some ctx) : ctx.request = r := by
  simpa using List.find?_some found

theorem snapshotsStore {pool : Pool} {ctx old : RequestContext} {r : Nat}
    (found : pool.context r = some old) (same : ctx.request = r) (q : Nat) :
    (pool.store ctx).snapshots q = if r = q then ctx.snapshots else pool.snapshots q := by
  unfold Pool.snapshots
  rw [contextStore,same]
  split
  · rename_i here
    rw [← here,found]
    rfl
  · rfl

theorem enterSnapshots (granted : Bool) (r : Nat) (pool : Pool) (q : Nat) :
    (generationKeyEnter granted r pool).2.snapshots q = pool.snapshots q := by
  unfold generationKeyEnter
  split
  · rename_i absent
    split
    · by_cases same : r = q
      · subst q
        simp only [Pool.snapshots,absent]
        simp [Pool.context]
      · simp [Pool.snapshots,Pool.context,same]
    · rfl
  · rename_i ctx found
    split
    · rfl
    · have mine : ctx.request = r := contextSource found
      rw [snapshotsStore found (by exact mine)]
      split
      · rename_i same
        subst q
        simp [Pool.snapshots,found]
      · rfl

theorem leaveSnapshots {name : Name} {ns : Nat} {z : Zone} {value : Option Bytes} {room : Bool × Bool}
    {ctx : RequestContext} :
    (generationKeyLeave name ns z value room ctx).2.2.request = ctx.request ∧
    (∀ snap, (generationKeyLeave name ns z value room ctx).2.1 = some snap →
      snap ∈ (generationKeyLeave name ns z value room ctx).2.2.snapshots) ∧
    ∀ snap ∈ (generationKeyLeave name ns z value room ctx).2.2.snapshots, snap ∈ ctx.snapshots ∨
      ((generationKeyLeave name ns z value room ctx).2.1 = some snap ∧ snap.ns = ns ∧
        snap.encoded = generationEncode name z.shared.epoch (generationLookup z.shared snap.logical)
          snap.logical) := by
  unfold generationKeyLeave
  cases value with
  | none => simp
  | some key =>
    simp only []
    split
    · simp
    · split
      · rename_i snap found
        refine ⟨rfl,fun s same => ?_,fun s member => .inl member⟩
        rw [← Option.some.inj same]
        exact List.mem_of_find?_eq_some found
      · split
        · simp
        · split
          · simp
          · refine ⟨rfl,fun s same => ?_,fun s member => ?_⟩
            · rw [← Option.some.inj same]
              exact List.mem_cons_self
            · rcases List.mem_cons.mp member with rfl | old
              · exact .inr ⟨rfl,rfl,rfl⟩
              · exact .inl old

theorem keyBuilt {name : Name} {ns : Nat} {z : Zone} {ctx : RequestContext} {logical : Bytes}
    (short : logical.length ≤ logicalKeyMax)
    (unknown : ∀ old ∈ ctx.snapshots, ¬ (old.ns = ns ∧ old.logical = logical)) :
    (generationKeyLeave name ns z (some logical) (true,true) ctx).2.1 = some ⟨ns,logical,
      generationEncode name z.shared.epoch (generationLookup z.shared logical) logical⟩ := by
  have absent : (ctx.snapshots.find? fun snap => snap.ns == ns && snap.logical == logical) = none := by
    refine List.find?_eq_none.mpr fun old member found => unknown old member ?_
    simpa using found
  simp [generationKeyLeave,Nat.not_lt.mpr short,absent]

/- The key a request is given is decoded to what it was made of, by its own
namespace only; every key that decodes is such a key, but for the case of its digits. -/
theorem codecFaithful (name : Name) :
    (∀ ns z ctx logical, logical.length ≤ logicalKeyMax →
      (∀ old ∈ RequestContext.snapshots ctx, ¬ (old.ns = ns ∧ old.logical = logical)) →
      (generationKeyLeave name ns z (some logical) (true,true) ctx).2.1 = some ⟨ns,logical,
        generationEncode name z.shared.epoch (generationLookup z.shared logical) logical⟩) ∧
    (∀ epoch generation logical,
      (generationEncode name epoch generation logical).length = name.bytes.length + 32 + logical.length ∧
      generationDecode name (generationEncode name epoch generation logical) =
        some ⟨logical,epoch.bytes,generation⟩ ∧
      ∀ other, other ≠ name → generationDecode other (generationEncode name epoch generation logical) = none) ∧
    (∀ name' epoch epoch' generation generation' logical logical',
      generationEncode name epoch generation logical = generationEncode name' epoch' generation' logical' →
      name = name' ∧ epoch = epoch' ∧ generation = generation' ∧ logical = logical') ∧
    ∀ key d, generationDecode name key = some d → ∃ epoch hex,
      epoch.bytes = d.epoch ∧ key = generationSpelled name epoch hex d.logical ∧
      generationEncode name epoch d.generation d.logical = generationSpelled name epoch (lowered hex) d.logical := by
  refine ⟨fun ns z ctx logical short unknown => keyBuilt short unknown,fun epoch generation logical =>
    ⟨encodeLength ..,decodeEncode ..,fun other apart => decodeOther apart ..⟩,
    fun _ _ _ _ _ _ _ same => encodeInjective same,fun key d decoded => ?_⟩
  obtain ⟨epoch,hex,bytes,digits,spelled⟩ := decodeSource decoded
  exact ⟨epoch,hex,bytes,spelled,spelledEncode digits⟩

theorem codecFaithfulSite :
    generationDecode siteName (generationEncode siteName siteEpoch 10 [58,0]) =
      some ⟨[58,0],siteEpoch.bytes,10⟩ ∧
    generationDecode ⟨[115,105],by decide,by decide,by decide⟩
      (generationEncode siteName siteEpoch 10 [58,0]) = none :=
  ⟨((codecFaithful siteName).2.1 siteEpoch 10 [58,0]).2.1,
    ((codecFaithful siteName).2.1 siteEpoch 10 [58,0]).2.2 _ (by decide)⟩

theorem stepMinted {w : World} {e : KeyEvent} {r : Request} {snap : Snapshot}
    (minted : .minted r snap ∈ (w.step names e).2) : snap ∈ (w.step names e).1.snapshots r := by
  unfold World.step at minted ⊢
  cases e with
  | invalidate ns call => simp at minted
  | enter q granted => simp at minted
  | leave q ns value room =>
    simp only [] at minted ⊢
    split at minted
    · simp at minted
    · rename_i ctx found
      split at minted
      · rename_i evaluating
        simp only [evaluating,if_true]
        obtain ⟨same,kept,_⟩ := @leaveSnapshots (names ns) ns (w.zones ns) value room ctx
        simp only [Option.mem_toList,Option.map_eq_some_iff,KeyOutput.minted.injEq] at minted
        obtain ⟨s,given,rfl,rfl⟩ := minted
        simp only [World.snapshots,Function.update_self]
        rw [snapshotsStore found (same.trans (contextSource found)),if_pos rfl]
        exact kept s given
      · simp at minted

theorem stepSnapshots {w : World} {e : KeyEvent} {r : Request} {snap : Snapshot}
    (member : snap ∈ (w.step names e).1.snapshots r) : snap ∈ w.snapshots r ∨
      (.minted r snap ∈ (w.step names e).2 ∧ (w.step names e).1.zones = w.zones ∧
        snap.encoded = generationEncode (names snap.ns) (w.zones snap.ns).shared.epoch
          (generationLookup (w.zones snap.ns).shared snap.logical) snap.logical) := by
  unfold World.step at member ⊢
  cases e with
  | invalidate ns call => exact .inl member
  | enter q granted =>
    left
    simp only [World.snapshots] at member ⊢
    by_cases same : r.pool = q.pool
    · simpa only [same,Function.update_self,enterSnapshots] using member
    · simpa only [Function.update_of_ne same] using member
  | leave q ns value room =>
    simp only [] at member ⊢
    split at member
    · exact .inl member
    · rename_i ctx found
      split at member
      · rename_i evaluating
        simp only [evaluating,if_true]
        obtain ⟨same,_,source⟩ := @leaveSnapshots (names ns) ns (w.zones ns) value room ctx
        simp only [World.snapshots] at member ⊢
        by_cases pool : r.pool = q.pool
        · simp only [pool,Function.update_self] at member ⊢
          rw [snapshotsStore found (same.trans (contextSource found))] at member
          split at member
          · rename_i address
            rcases source snap member with old | ⟨given,rfl,encoded⟩
            · left
              simpa only [Pool.snapshots,← address,found,Option.map_some,Option.getD_some] using old
            · right
              obtain ⟨pool₁,address₁⟩ := r
              obtain ⟨pool₂,address₂⟩ := q
              cases pool
              cases address
              exact ⟨by simp [given],trivial,encoded⟩
          · exact .inl member
        · left
          simpa only [Function.update_of_ne pool] using member
      · exact .inl member

theorem stepMoved (w : World) (e : KeyEvent) (ns : Nat) (bounded : (w.zones ns).shared.Bounded) :
    Moved (w.zones ns) ((w.step names e).1.zones ns) bounded := by
  cases e with
  | invalidate n call =>
    by_cases same : ns = n
    · subst n
      simpa only [World.step,Function.update_self] using invalidateMoved (names ns) call bounded
    · simpa only [World.step,Function.update_of_ne same] using movedRefl bounded
  | enter r granted => exact movedRefl bounded
  | leave r n value room =>
    simp only [World.step]
    split
    · exact movedRefl bounded
    · split <;> exact movedRefl bounded

end machine
end CachePurge
