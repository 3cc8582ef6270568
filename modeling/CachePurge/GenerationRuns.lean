import CachePurge.GenerationRequests
import Mathlib.Logic.Basic

/-! What holds over every run of a world whose namespaces keep their epochs: a
key handed out before an accepted invalidation is not handed out after it, a
conditional invalidation is a compare-and-swap on the generation of its key, and
every key handed out is either current or stale for good. -/
namespace CachePurge
open General

section runs
variable (names : Nat → Name) (epochs : Nat → Epoch)

def Issued (w : World) (snap : Snapshot) : Prop :=
  ∃ g, snap.encoded = generationEncode (names snap.ns) (epochs snap.ns) g snap.logical ∧
    g.toNat ≤ (generationLookup (w.zones snap.ns).shared snap.logical).toNat

structure World.Valid (w : World) : Prop where
  bounded : ∀ ns, (w.zones ns).shared.Bounded
  epoch : ∀ ns, (w.zones ns).shared.epoch = epochs ns
  issued : ∀ r, ∀ snap ∈ w.snapshots r, Issued names epochs w snap

theorem initValid : (worldInit epochs).Valid names epochs :=
  ⟨fun ns => initBounded (epochs ns),fun _ => rfl,
    fun r snap member => by simp [World.snapshots,worldInit,Pool.snapshots,Pool.context] at member⟩

variable {names epochs}

theorem lookupGrows {z z' : Zone} {bounded : z.shared.Bounded} (moved : Moved z z' bounded) (key : Bytes) :
    (generationLookup z.shared key).toNat ≤ (generationLookup z'.shared key).toNat :=
  moved.grows.live key

theorem issuedMoved {w w' : World} (moved : ∀ ns bounded, Moved (w.zones ns) (w'.zones ns) bounded)
    (bounded : ∀ ns, (w.zones ns).shared.Bounded) {snap : Snapshot} (issued : Issued names epochs w snap) :
    Issued names epochs w' snap := by
  obtain ⟨g,encoded,reached⟩ := issued
  exact ⟨g,encoded,reached.trans (lookupGrows (moved _ (bounded _)) _)⟩

theorem stepValid (w : World) (e : KeyEvent) (valid : w.Valid names epochs) :
    (w.step names e).1.Valid names epochs := by
  have moved := stepMoved names w e
  refine ⟨fun ns => (moved ns (valid.bounded ns)).bounded',
    fun ns => (moved ns (valid.bounded ns)).epoch.trans (valid.epoch ns),fun r snap member => ?_⟩
  rcases stepSnapshots names member with old | ⟨_,zones,encoded⟩
  · exact issuedMoved moved valid.bounded (valid.issued r snap old)
  · rw [valid.epoch] at encoded
    exact ⟨_,encoded,by rw [zones]⟩

theorem runValid {w : World} (valid : w.Valid names epochs) (events : List KeyEvent) :
    ((worldMachine names).after w events).Valid names epochs :=
  (worldMachine names).invariant stepValid valid events

theorem runMoved {w : World} (valid : w.Valid names epochs) (events : List KeyEvent) (ns : Nat)
    (bounded : (w.zones ns).shared.Bounded) :
    Moved (w.zones ns) (((worldMachine names).after w events).zones ns) bounded :=
  (worldMachine names).later (R := fun w w' => ∀ ns bounded, Moved (w.zones ns) (w'.zones ns) bounded)
    stepValid (fun _ _ bounded => movedRefl bounded)
    (fun left right ns bounded => movedTrans (left ns bounded) (right ns _))
    (fun w e _ => stepMoved names w e) valid events ns bounded

theorem staleKey {name : Name} {z : Zone} {key : Bytes} : generationStale name z key = .ok ↔
    ∃ d, generationDecode name key = some d ∧
      (d.epoch ≠ z.shared.epoch.bytes ∨ d.generation < generationLookup z.shared d.logical) := by
  unfold generationStale
  cases generationDecode name key with
  | none => simp
  | some d => simp [or_iff_not_imp_left]

theorem staleStays {name : Name} {z z' : Zone} {bounded : z.shared.Bounded} (moved : Moved z z' bounded)
    {key : Bytes} (stale : generationStale name z key = .ok) : generationStale name z' key = .ok := by
  obtain ⟨d,decoded,old⟩ := staleKey.mp stale
  refine staleKey.mpr ⟨d,decoded,?_⟩
  rcases old with epoch | below
  · exact .inl (by rw [moved.epoch]; exact epoch)
  · exact .inr (UInt64.lt_iff_toNat_lt.mpr (lt_of_lt_of_le (UInt64.lt_iff_toNat_lt.mp below) (lookupGrows moved _)))

theorem runIssued {w : World} (valid : w.Valid names epochs) (events : List KeyEvent)
    {r : Request} {snap : Snapshot} (minted : .minted r snap ∈ (worldMachine names).outputs w events) :
    Issued names epochs ((worldMachine names).after w events) snap := by
  refine (worldMachine names).history (P := World.Valid names epochs)
    (Q := fun o w => ∀ r snap, o = .minted r snap → Issued names epochs w snap)
    stepValid ?_ ?_ valid events _ minted r snap rfl
  · rintro w e valid o emitted r snap rfl
    exact (stepValid w e valid).issued r snap (stepMinted names emitted)
  · intro w e o valid issued r snap same
    exact issuedMoved (stepMoved names w e) valid.bounded (issued r snap same)

theorem runHeld (events : List KeyEvent) {r : Request} {snap : Snapshot}
    (held : snap ∈ ((worldMachine names).after (worldInit epochs) events).snapshots r) :
    .minted r snap ∈ (worldMachine names).outputs (worldInit epochs) events := by
  refine (worldMachine names).tracks
    (P := fun past w => ∀ r snap, snap ∈ w.snapshots r → .minted r snap ∈ past)
    ?_ ?_ events r snap held
  · intro r snap member
    simp [World.snapshots,worldInit,Pool.snapshots,Pool.context] at member
  · intro past w e tracked r snap member
    rcases stepSnapshots names member with old | ⟨minted,_⟩
    · exact List.mem_append_left _ (tracked r snap old)
    · exact List.mem_append_right _ minted

theorem mintedReached {w : World} (valid : w.Valid names epochs) {r : Request} {ns : Nat} {key : Bytes}
    (unknown : ∀ old ∈ w.snapshots r, ¬ (old.ns = ns ∧ old.logical = key)) (events : List KeyEvent)
    {snap : Snapshot} (minted : .minted r snap ∈ (worldMachine names).outputs w events)
    (here : snap.ns = ns) (logical : snap.logical = key) :
    ∃ g, snap.encoded = generationEncode (names ns) (epochs ns) g key ∧
      (generationLookup (w.zones ns).shared key).toNat ≤ g.toNat := by
  -- Carried along the run: the live generation stays above, and so does what r holds.
  let Above (w' : World) : Prop := w'.Valid names epochs ∧
    (generationLookup (w.zones ns).shared key).toNat ≤ (generationLookup (w'.zones ns).shared key).toNat ∧
    ∀ s ∈ w'.snapshots r, s.ns = ns → s.logical = key →
      ∃ g, s.encoded = generationEncode (names ns) (epochs ns) g key ∧
        (generationLookup (w.zones ns).shared key).toNat ≤ g.toNat
  have kept : ∀ w' e, Above w' → Above (w'.step names e).1 := by
    rintro w' e ⟨valid',above,held⟩
    refine ⟨stepValid w' e valid',?_,fun s member here logical => ?_⟩
    · exact above.trans (lookupGrows (stepMoved names w' e ns (valid'.bounded ns)) key)
    · rcases stepSnapshots names member with old | ⟨_,_,encoded⟩
      · exact held s old here logical
      · subst here logical
        rw [valid'.epoch] at encoded
        exact ⟨_,encoded,above⟩
  have start : Above w := ⟨valid,le_rfl,fun s member here logical => absurd ⟨here,logical⟩ (unknown s member)⟩
  refine (worldMachine names).everyOutput (P := Above)
    (Q := fun o => ∀ snap, o = .minted r snap → snap.ns = ns → snap.logical = key →
      ∃ g, snap.encoded = generationEncode (names ns) (epochs ns) g key ∧
        (generationLookup (w.zones ns).shared key).toNat ≤ g.toNat)
    kept ?_ start events _ minted snap rfl here logical
  rintro w' e above o emitted s rfl here logical
  exact (kept w' e above).2.2 s (stepMinted names emitted) here logical

theorem staleNeverMinted {w : World} (valid : w.Valid names epochs) {ns : Nat} {key : Bytes}
    (stale : generationStale (names ns) (w.zones ns) key = .ok) {r : Request} {snap : Snapshot}
    (distinct : names snap.ns = names ns → snap.ns = ns)
    (unknown : ∀ old ∈ w.snapshots r, ¬ (old.ns = snap.ns ∧ old.logical = snap.logical)) {events : List KeyEvent}
    (minted : .minted r snap ∈ (worldMachine names).outputs w events) : snap.encoded ≠ key := by
  intro same
  obtain ⟨d,decoded,old⟩ := staleKey.mp stale
  obtain ⟨g,encodes,reached⟩ := mintedReached valid unknown events minted rfl rfl
  have own := decodeEncode (names snap.ns) (epochs snap.ns) g snap.logical
  rw [← encodes,same] at own
  have here := distinct (decodeForeign own decoded)
  rw [here,decoded] at own
  cases Option.some.inj own
  rcases old with epoch | below
  · exact epoch (by rw [valid.epoch])
  · rw [here] at reached
    exact absurd (UInt64.lt_iff_toNat_lt.mp below) (not_lt.mpr reached)

def invalidated (names : Nat → Name) (w : World) (ns : Nat) (call : Invalidation) : World :=
  ((worldMachine names).step w (.invalidate ns call)).1

theorem invalidatedZone (names : Nat → Name) (w : World) (ns : Nat) (call : Invalidation) :
    (invalidated names w ns call).zones ns =
      (generationInvalidate (names ns) call (w.zones ns)).2 := by
  simp [invalidated,worldMachine,World.step]

section accepted
variable {w : World} (valid : w.Valid names epochs) {ns : Nat} {call : Invalidation}
  (ok : (generationInvalidate (names ns) call (w.zones ns)).1 = .ok)
  {key : Bytes} (selects : call.selects key)
include valid ok selects

theorem overtaken (back : List KeyEvent) : (w.zones ns).shared.serial.toNat <
    (generationLookup (((worldMachine names).after (invalidated names w ns call) back).zones
      ns).shared key).toNat := by
  have step := invalidateAccepted (valid.bounded ns) ok
  have same := invalidatedZone names w ns call
  have next : (invalidated names w ns call).Valid names epochs :=
    stepValid w (.invalidate ns call) valid
  have rest := runMoved next back ns (next.bounded ns)
  have stamped := VersionTable.stampedAbove step.publishes (selectsCovers selects (w.zones ns))
  have grown := lookupGrows rest key
  rw [same] at grown
  exact lt_of_lt_of_le stamped grown

theorem mintedAbove {r : Request}
    (unknown : ∀ old ∈ w.snapshots r, ¬ (old.ns = ns ∧ old.logical = key)) (back : List KeyEvent)
    {snap : Snapshot} (minted : .minted r snap ∈
      (worldMachine names).outputs (invalidated names w ns call) back)
    (at_ : snap.ns = ns) (of_ : snap.logical = key) :
    ∃ g, snap.encoded = generationEncode (names ns) (epochs ns) g key ∧
      (w.zones ns).shared.serial.toNat < g.toNat := by
  have next : (invalidated names w ns call).Valid names epochs := stepValid w (.invalidate ns call) valid
  have held : (invalidated names w ns call).snapshots r = w.snapshots r := rfl
  obtain ⟨g,encodes,reached⟩ := mintedReached next (by rw [held]; exact unknown) back minted at_ of_
  exact ⟨g,encodes,(overtaken valid ok selects []).trans_le reached⟩

end accepted

/- No request that first asks for a key after an accepted invalidation is given
the encoded key that somebody was given for it before. -/
theorem mintedFreshAfter (names : Nat → Name) (epochs : Nat → Epoch) (front back : List KeyEvent)
    (ns : Nat) (call : Invalidation) (ok : (generationInvalidate (names ns) call
      (((worldMachine names).after (worldInit epochs) front).zones ns)).1 = .ok)
    {key : Bytes} (selects : call.selects key) {r r' : Request} {snap snap' : Snapshot}
    (before : .minted r snap ∈ (worldMachine names).outputs (worldInit epochs) front)
    (after : .minted r' snap' ∈ (worldMachine names).outputs
      ((worldMachine names).after (worldInit epochs) (front ++ [.invalidate ns call])) back)
    (here : snap.ns = ns ∧ snap.logical = key) (here' : snap'.ns = ns ∧ snap'.logical = key)
    (first : ∀ old, .minted r' old ∈ (worldMachine names).outputs (worldInit epochs) front →
      ¬ (old.ns = ns ∧ old.logical = key)) : snap.encoded ≠ snap'.encoded := by
  intro same
  have valid := runValid (initValid names epochs) front
  rw [Machine.afterAppend] at after
  obtain ⟨g,encoded,reached⟩ := runIssued (initValid names epochs) front before
  obtain ⟨g',encoded',above⟩ := mintedAbove valid ok selects
    (fun old held => first old (runHeld front held)) back after here'.1 here'.2
  obtain ⟨rfl,rfl⟩ := here
  rw [encoded,encoded'] at same
  have bound := UInt64.le_iff_toNat_le.mp (lookupBounded (valid.bounded snap.ns) snap.logical)
  rw [← encodeGeneration same] at above
  exact absurd above (not_lt.mpr (reached.trans bound))

theorem mintedFreshAfterPurge :
    generationEncode siteName siteEpoch 1 [47,97] ≠ generationEncode siteName siteEpoch 2 [47,97] :=
  @mintedFreshAfter (fun _ => siteName) (fun _ => siteEpoch)
    [.enter ⟨0,0⟩ true,.leave ⟨0,0⟩ 0 (some [47,97]) (true,true)]
    [.enter ⟨1,0⟩ true,.leave ⟨1,0⟩ 0 (some [47,97]) (true,true)]
    0 ⟨[47,42],false,none,true,[some 8]⟩ (by decide) [47,97] (by decide) ⟨0,0⟩ ⟨1,0⟩
    ⟨0,[47,97],generationEncode siteName siteEpoch 1 [47,97]⟩
    ⟨0,[47,97],generationEncode siteName siteEpoch 2 [47,97]⟩
    (by decide) (by decide) (by decide) (by decide) (fun old given => by
      rw [show (worldMachine fun _ => siteName).outputs (worldInit fun _ => siteEpoch)
        [.enter ⟨0,0⟩ true,.leave ⟨0,0⟩ 0 (some [47,97]) (true,true)] =
        [.minted ⟨0,0⟩ ⟨0,[47,97],generationEncode siteName siteEpoch 1 [47,97]⟩] by decide] at given
      simp at given)

theorem conditionalDecides (name : Name) (z : Zone) (call : Invalidation) {expected : Bytes}
    (conditional : call.expected = some expected) (short : call.key.length ≤ logicalKeyMax)
    (locked : call.locked = true) (room : z.shared.serial ≠ 0xFFFFFFFFFFFFFFFF) :
    ((generationInvalidate name call z).1 = .ok ↔ generationDecode name expected =
      some ⟨call.key,z.shared.epoch.bytes,generationLookup z.shared call.key⟩) ∧
    ((generationInvalidate name call z).1 ≠ .ok → generationInvalidate name call z = (.declined,z)) := by
  have admits : expectedMatches name call z.shared = true ↔ generationDecode name expected =
      some ⟨call.key,z.shared.epoch.bytes,generationLookup z.shared call.key⟩ := by
    cases decoded : generationDecode name expected with
    | none => simp [expectedMatches,conditional,decoded]
    | some d =>
      obtain ⟨logical,epoch,generation⟩ := d
      simp [expectedMatches,conditional,decoded,and_assoc]
  unfold generationInvalidate
  rw [if_neg (by omega),if_neg (by simp [locked])]
  by_cases admitted : expectedMatches name call z.shared = true
  · simp [admitted,room,admits.mp admitted]
  · have refused := mt admits.mpr admitted
    simp [admitted,refused]

theorem conditionalSucceeds {name : Name} {z : Zone} {call : Invalidation} {expected : Bytes}
    (conditional : call.expected = some expected) (ok : (generationInvalidate name call z).1 = .ok) :
    generationDecode name expected =
      some ⟨call.key,z.shared.epoch.bytes,generationLookup z.shared call.key⟩ := by
  rcases invalidateOutcome name call z with ⟨refused,_⟩ | ⟨_,_,_,admitted,_⟩
  · exact absurd ok refused
  · unfold expectedMatches at admitted
    rw [conditional] at admitted
    simp only [] at admitted
    split at admitted
    · contradiction
    · rename_i d decoded
      simp only [Bool.and_eq_true,beq_iff_eq] at admitted
      rw [decoded,← admitted.2,← admitted.1.1,← admitted.1.2]

theorem conditionalSelects {call : Invalidation} {expected : Bytes}
    (conditional : call.expected = some expected) : call.selects call.key := by
  unfold Invalidation.selects
  split
  · trivial
  · simp [Invalidation.ranged,conditional]

/- An encoded key somebody holds after some events: a request was given it, or a
scan found it current. -/
inductive Captured (names : Nat → Name) (epochs : Nat → Epoch) (events : List KeyEvent)
    (ns : Nat) (key encoded : Bytes) : Prop where
  | minted {r : Request} {snap : Snapshot}
      (given : .minted r snap ∈ (worldMachine names).outputs (worldInit epochs) events)
      (here : snap.ns = ns) (logical : snap.logical = key) (same : snap.encoded = encoded)
  | current (judged : generationCurrent (names ns)
      (((worldMachine names).after (worldInit epochs) events).zones ns) encoded = (.ok,some key))

theorem capturedReached {events : List KeyEvent} {ns : Nat} {key encoded : Bytes}
    (captured : Captured names epochs events ns key encoded) :
    ∃ d, generationDecode (names ns) encoded = some d ∧ d.logical = key ∧ d.generation.toNat ≤
      (generationLookup (((worldMachine names).after (worldInit epochs) events).zones ns).shared key).toNat := by
  cases captured with
  | minted given here logical same =>
    obtain ⟨g,encodes,reached⟩ := runIssued (initValid names epochs) events given
    subst here logical same
    exact ⟨_,by rw [encodes,decodeEncode],rfl,reached⟩
  | current judged =>
    unfold generationCurrent at judged
    split at judged
    · simp at judged
    · rename_i d decoded
      split at judged <;> simp only [Prod.mk.injEq,Option.some.injEq,reduceCtorEq,false_and] at judged
      rename_i live
      simp only [Bool.and_eq_true,beq_iff_eq] at live
      exact ⟨d,decoded,judged.2,by rw [live.2,judged.2]⟩

theorem capturedNeverSucceeds {front middle back : List KeyEvent} {ns : Nat} {key encoded : Bytes}
    (captured : Captured names epochs front ns key encoded) {call late : Invalidation}
    (ok : (generationInvalidate (names ns) call
      (((worldMachine names).after (worldInit epochs) (front ++ middle)).zones ns)).1 = .ok)
    (selects : call.selects key) (conditional : late.expected = some encoded) :
    (generationInvalidate (names ns) late (((worldMachine names).after (worldInit epochs)
      (front ++ middle ++ .invalidate ns call :: back)).zones ns)).1 ≠ .ok := by
  intro succeeded
  obtain ⟨d,decoded,rfl,reached⟩ := capturedReached captured
  have valid := runValid (initValid names epochs) (front ++ middle)
  have above := overtaken valid ok selects back
  have matched := conditionalSucceeds conditional succeeded
  rw [Machine.afterAppend,Machine.afterCons] at matched
  rw [decoded] at matched
  have live := congrArg Decoded.generation (Option.some.inj matched)
  have same := congrArg Decoded.logical (Option.some.inj matched)
  simp only at live same
  have grown := runMoved (runValid (initValid names epochs) front) middle ns
    ((runValid (initValid names epochs) front).bounded ns)
  rw [← Machine.afterAppend] at grown
  have seen := reached.trans (lookupGrows grown d.logical)
  have bound := UInt64.le_iff_toNat_le.mp (lookupBounded (valid.bounded ns) d.logical)
  rw [live,← same] at seen
  exact absurd above (by
    have h := seen.trans bound
    exact not_lt.mpr h)

theorem succeedsOnce {front middle : List KeyEvent} {ns : Nat} {call call' : Invalidation}
    {expected expected' : Bytes} (conditional : call.expected = some expected)
    (conditional' : call'.expected = some expected') (key : call.key = call'.key)
    (generation : (generationDecode (names ns) expected).map Decoded.generation =
      (generationDecode (names ns) expected').map Decoded.generation)
    (ok : (generationInvalidate (names ns) call
      (((worldMachine names).after (worldInit epochs) front).zones ns)).1 = .ok) :
    (generationInvalidate (names ns) call' (((worldMachine names).after (worldInit epochs)
      (front ++ .invalidate ns call :: middle)).zones ns)).1 ≠ .ok := by
  intro again
  have valid := runValid (initValid names epochs) front
  have above := overtaken valid ok (conditionalSelects conditional) middle
  have first := conditionalSucceeds conditional ok
  have second := conditionalSucceeds conditional' again
  rw [Machine.afterAppend,Machine.afterCons] at second
  rw [first,second,← key] at generation
  simp only [Option.map_some,Option.some.injEq] at generation
  have bound := UInt64.le_iff_toNat_le.mp (lookupBounded (valid.bounded ns) call.key)
  rw [generation] at bound
  exact absurd above (not_lt.mpr bound)

/- An invalidation with an expected key compares and swaps under the namespace
lock: it succeeds exactly when the expected key carries the live generation. -/
theorem conditionalIsCompareAndSwap (names : Nat → Name) (epochs : Nat → Epoch) :
    (∀ (name : Name) (z : Zone) (call : Invalidation) (expected : Bytes),
      call.expected = some expected → call.key.length ≤ logicalKeyMax → call.locked = true →
      z.shared.serial ≠ 0xFFFFFFFFFFFFFFFF →
      ((generationInvalidate name call z).1 = .ok ↔ generationDecode name expected =
        some ⟨call.key,z.shared.epoch.bytes,generationLookup z.shared call.key⟩) ∧
      ((generationInvalidate name call z).1 ≠ .ok →
        generationInvalidate name call z = (.declined,z))) ∧
    (∀ (front middle back : List KeyEvent) (ns : Nat) (key encoded : Bytes),
      Captured names epochs front ns key encoded → ∀ (call late : Invalidation),
      (generationInvalidate (names ns) call
        (((worldMachine names).after (worldInit epochs) (front ++ middle)).zones ns)).1 = .ok →
      call.selects key → late.expected = some encoded →
      (generationInvalidate (names ns) late (((worldMachine names).after (worldInit epochs)
        (front ++ middle ++ .invalidate ns call :: back)).zones ns)).1 ≠ .ok) ∧
    ∀ (front middle : List KeyEvent) (ns : Nat) (call call' : Invalidation) (expected expected' : Bytes),
      call.expected = some expected → call'.expected = some expected' → call.key = call'.key →
      (generationDecode (names ns) expected).map Decoded.generation =
        (generationDecode (names ns) expected').map Decoded.generation →
      (generationInvalidate (names ns) call
        (((worldMachine names).after (worldInit epochs) front).zones ns)).1 = .ok →
      (generationInvalidate (names ns) call' (((worldMachine names).after (worldInit epochs)
        (front ++ .invalidate ns call :: middle)).zones ns)).1 ≠ .ok :=
  ⟨fun name z call _ conditional short locked room =>
      conditionalDecides name z call conditional short locked room,
    fun _ _ _ _ _ _ captured _ _ ok selects conditional =>
      capturedNeverSucceeds captured ok selects conditional,
    fun _ _ _ _ _ _ _ conditional conditional' key generation ok =>
      succeedsOnce conditional conditional' key generation ok⟩

theorem conditionalLateRefresh :
    (generationInvalidate siteName ⟨[47,97],false,some (generationEncode siteName siteEpoch 1 [47,97]),
      true,[]⟩ (((worldMachine fun _ => siteName).after (worldInit fun _ => siteEpoch)
        [.enter ⟨0,0⟩ true,.leave ⟨0,0⟩ 0 (some [47,97]) (true,true),
          .invalidate 0 ⟨[47,42],false,none,true,[some 8]⟩]).zones 0)).1 ≠ .ok :=
  (conditionalIsCompareAndSwap (fun _ => siteName) (fun _ => siteEpoch)).2.1
    [.enter ⟨0,0⟩ true,.leave ⟨0,0⟩ 0 (some [47,97]) (true,true)] [] [] 0 [47,97]
    (generationEncode siteName siteEpoch 1 [47,97]) (.current (by decide)) ⟨[47,42],false,none,true,[some 8]⟩
    ⟨[47,97],false,some (generationEncode siteName siteEpoch 1 [47,97]),true,[]⟩
    (by decide) (by decide) rfl

theorem verdicts {name : Name} {z : Zone} {encoded logical : Bytes} {g : UInt64}
    (encodes : encoded = generationEncode name z.shared.epoch g logical) :
    ((generationCurrent name z encoded).1 = .ok ↔ g = generationLookup z.shared logical) ∧
    (generationStale name z encoded = .ok ↔ g < generationLookup z.shared logical) := by
  subst encodes
  constructor
  · rw [generationCurrent,decodeEncode]
    simp only [beq_self_eq_true,Bool.true_and,beq_iff_eq]
    split <;> simp_all
  · rw [generationStale,decodeEncode]
    simp

theorem mintedVerdicts (names : Nat → Name) (epochs : Nat → Epoch) (events later : List KeyEvent)
    {r : Request} {snap : Snapshot}
    (minted : .minted r snap ∈ (worldMachine names).outputs (worldInit epochs) events) :
    let zone (events : List KeyEvent) := ((worldMachine names).after (worldInit epochs) events).zones snap.ns
    Xor ((generationCurrent (names snap.ns) (zone (events ++ later)) snap.encoded).1 = .ok)
      (generationStale (names snap.ns) (zone (events ++ later)) snap.encoded = .ok) ∧
    ∀ rest, generationStale (names snap.ns) (zone (events ++ later)) snap.encoded = .ok →
      generationStale (names snap.ns) (zone (events ++ later ++ rest)) snap.encoded = .ok := by
  intro zone
  have valid (run : List KeyEvent) := runValid (initValid names epochs) run
  obtain ⟨g,encodes,reached⟩ := runIssued (initValid names epochs) events minted
  have judged (run : List KeyEvent) := verdicts
    (show snap.encoded = generationEncode (names snap.ns) (zone run).shared.epoch g snap.logical by
      rw [encodes,← (valid run).epoch snap.ns])
  have onward (run rest : List KeyEvent) : (generationLookup (zone run).shared snap.logical).toNat ≤
      (generationLookup (zone (run ++ rest)).shared snap.logical).toNat := by
    have moved := runMoved (valid run) rest snap.ns ((valid run).bounded snap.ns)
    rw [← Machine.afterAppend] at moved
    exact lookupGrows moved snap.logical
  rw [(judged _).1,(judged _).2]
  have below := reached.trans (onward events later)
  refine ⟨?_,fun rest stale => ?_⟩
  · rcases Nat.lt_or_eq_of_le below with less | same
    · exact .inr ⟨UInt64.lt_iff_toNat_lt.mpr less,fun h => absurd (congrArg UInt64.toNat h) less.ne⟩
    · exact .inl ⟨UInt64.toNat_inj.mp same,fun h => absurd (UInt64.lt_iff_toNat_lt.mp h) same.not_lt⟩
  · rw [(judged _).2]
    exact UInt64.lt_iff_toNat_lt.mpr (lt_of_lt_of_le (UInt64.lt_iff_toNat_lt.mp stale) (onward _ rest))

theorem mintedVerdictsPurged :
    let zone := ((worldMachine fun _ => siteName).after (worldInit fun _ => siteEpoch)
      [.enter ⟨0,0⟩ true,.leave ⟨0,0⟩ 0 (some [47,97]) (true,true),
        .invalidate 0 ⟨[47,97],false,none,true,[some 8,some 9]⟩]).zones 0
    Xor ((generationCurrent siteName zone (generationEncode siteName siteEpoch 1 [47,97])).1 = .ok)
      (generationStale siteName zone (generationEncode siteName siteEpoch 1 [47,97]) = .ok) :=
  (@mintedVerdicts (fun _ => siteName) (fun _ => siteEpoch)
    [.enter ⟨0,0⟩ true,.leave ⟨0,0⟩ 0 (some [47,97]) (true,true)]
    [.invalidate 0 ⟨[47,97],false,none,true,[some 8,some 9]⟩] ⟨0,0⟩
    ⟨0,[47,97],generationEncode siteName siteEpoch 1 [47,97]⟩ (by decide)).1

end runs
end CachePurge
