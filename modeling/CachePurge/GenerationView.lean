import CachePurge.GenerationRuns

/-! What the status reply tells a file scanner about a namespace: the four fields
of ngx_http_cache_purge_generation_view and the verdicts docs/OPERATIONS.md reads
off them, judged against the cleanup's own test over every run. -/
namespace CachePurge
open General

structure GenerationView where
  epoch : Bytes
  serial : UInt64
  baseline : UInt64
  rules : Bool
  deriving DecidableEq, Repr

def generationView (z : Zone) : GenerationView where
  epoch := z.shared.epoch.bytes
  serial := z.shared.serial
  baseline := z.shared.baseline
  rules := z.shared.exactRules != .null || z.shared.prefixRules != .null

inductive Verdict where
  | stale | live | unknown
  deriving DecidableEq, Repr

/- The documented table for a file of a listed namespace. -/
def GenerationView.verdict (view : GenerationView) (file : Decoded) : Verdict :=
  if file.epoch ≠ view.epoch then .stale
  else if file.generation < view.baseline then .stale
  else if view.rules then .unknown else .live

theorem baselineReached (state : Generation) (key : Bytes) :
    state.baseline.toNat ≤ (generationLookup state key).toNat :=
  ((lookupBound state key _).mp le_rfl).1

theorem noRulesBaseline {z : Zone} (none : (generationView z).rules = false) (key : Bytes) :
    generationLookup z.shared key = z.shared.baseline := by
  simp only [generationView,Bool.or_eq_false_iff,bne_eq_false_iff_eq] at none
  refine lookupUnique fun n => ?_
  simp [exactReading,prefixReading,none.1,none.2]

theorem staleVerdict {name : Name} {z : Zone} {key : Bytes} {file : Decoded}
    (decoded : generationDecode name key = some file) (stale : (generationView z).verdict file = .stale) :
    generationStale name z key = .ok := by
  refine staleKey.mpr ⟨file,decoded,?_⟩
  unfold GenerationView.verdict at stale
  split at stale
  · exact .inl ‹_›
  · split at stale
    · rename_i below
      right
      rw [UInt64.lt_iff_toNat_lt] at below ⊢
      exact below.trans_le (baselineReached z.shared file.logical)
    · split at stale <;> contradiction

theorem liveVerdict {name : Name} {z : Zone} {key : Bytes} {file : Decoded}
    (decoded : generationDecode name key = some file) (live : (generationView z).verdict file = .live) :
    generationStale name z key ≠ .ok := by
  intro stale
  obtain ⟨d,same,old⟩ := staleKey.mp stale
  rw [decoded] at same
  cases Option.some.inj same
  unfold GenerationView.verdict at live
  split at live
  · contradiction
  · rename_i epoch
    split at live
    · contradiction
    · rename_i reached
      split at live
      · contradiction
      · rename_i rules
        rw [noRulesBaseline (by simpa using rules)] at old
        exact old.elim (fun other => epoch other) reached

section runs
variable {names : Nat → Name} {epochs : Nat → Epoch}

theorem stepQuiet {w : World} (valid : w.Valid names epochs) (e : KeyEvent) (ns : Nat) :
    (w.step names e).1.zones ns = w.zones ns ∨
    (w.zones ns).shared.serial.toNat < ((w.step names e).1.zones ns).shared.serial.toNat := by
  cases e with
  | invalidate n call =>
    by_cases same : ns = n
    · subst n
      simp only [World.step,Function.update_self]
      rcases invalidateOutcome (names ns) call (w.zones ns) with ⟨_,unchanged⟩ | ⟨ok,_⟩
      · exact .inl unchanged
      · right
        rw [(invalidateAccepted (valid.bounded ns) ok).serial]
        omega
    · left
      simp [World.step,Function.update_of_ne same]
  | enter r granted => exact .inl rfl
  | leave r n value room =>
    left
    simp only [World.step]
    split
    · rfl
    · split <;> rfl

theorem serialGrows {w : World} (valid : w.Valid names epochs) (events : List KeyEvent) (ns : Nat) :
    (w.zones ns).shared.serial.toNat ≤
      (((worldMachine names).after w events).zones ns).shared.serial.toNat :=
  (runMoved valid events ns (valid.bounded ns)).grows.serial

theorem runQuiet {w : World} (valid : w.Valid names epochs) {events : List KeyEvent} {ns : Nat}
    (same : (((worldMachine names).after w events).zones ns).shared.serial = (w.zones ns).shared.serial) :
    ((worldMachine names).after w events).zones ns = w.zones ns := by
  induction events generalizing w with
  | nil => rfl
  | cons e rest ih =>
    have next := stepValid w e valid
    have grows := serialGrows next rest ns
    rcases stepQuiet valid e ns with unchanged | above
    · rw [← unchanged] at same
      exact (ih next same).trans unchanged
    · have bound := congrArg UInt64.toNat same
      rw [Machine.afterCons] at bound
      simp only [worldMachine] at bound grows
      omega

theorem runUnpublished {w : World} (valid : w.Valid names epochs) {front back : List KeyEvent} {ns : Nat}
    (same : (((worldMachine names).after w (front ++ back)).zones ns).shared.serial =
      (w.zones ns).shared.serial) :
    ((worldMachine names).after w front).zones ns = w.zones ns := by
  have first := serialGrows valid front ns
  have second := serialGrows (runValid valid front) back ns
  rw [← Machine.afterAppend] at second
  have bound := congrArg UInt64.toNat same
  exact runQuiet valid (UInt64.toNat_inj.mp (by omega))

theorem quietRefuses {w : World} (valid : w.Valid names epochs) {front back : List KeyEvent} {ns : Nat}
    {call : Invalidation}
    (same : (((worldMachine names).after w (front ++ .invalidate ns call :: back)).zones ns).shared.serial =
      (w.zones ns).shared.serial) :
    (generationInvalidate (names ns) call (((worldMachine names).after w front).zones ns)).1 ≠ .ok := by
  intro ok
  have before := runUnpublished valid same
  rw [List.append_cons] at same
  have after := runUnpublished valid same
  rw [Machine.afterAppend] at after
  have serial := (invalidateAccepted ((runValid valid front).bounded ns) ok).serial
  have stepped := invalidatedZone names ((worldMachine names).after w front) ns call
  have moved := congrArg (fun z => z.shared.serial.toNat) (stepped.symm.trans after)
  rw [serial,before] at moved
  omega

/- What the four fields say of a file is what the cleanup would answer, for as long
as a second reading of them agrees; of two files of one key the older is stale. -/
theorem viewClassifies (names : Nat → Name) (epochs : Nat → Epoch) (events : List KeyEvent) (ns : Nat) :
    let zone (run : List KeyEvent) := ((worldMachine names).after (worldInit epochs) run).zones ns
    let view (run : List KeyEvent) := generationView (zone run)
    (∀ key file, generationDecode (names ns) key = some file →
      ((view events).verdict file = .stale →
        ∀ later, generationStale (names ns) (zone (events ++ later)) key = .ok) ∧
      ((view events).verdict file = .live → generationStale (names ns) (zone events) key ≠ .ok)) ∧
    (∀ later, (view (events ++ later)).epoch = (view events).epoch →
      (view (events ++ later)).baseline = (view events).baseline →
      (view (events ++ later)).serial = (view events).serial →
      (∀ front call back, later = front ++ .invalidate ns call :: back →
        (generationInvalidate (names ns) call (zone (events ++ front))).1 ≠ .ok) ∧
      view (events ++ later) = view events ∧
      ∀ front back, later = front ++ back → ∀ key file, generationDecode (names ns) key = some file →
        ((view events).verdict file = .stale →
          generationStale (names ns) (zone (events ++ front)) key = .ok) ∧
        ((view events).verdict file = .live →
          generationStale (names ns) (zone (events ++ front)) key ≠ .ok)) ∧
    ∀ older newer file file', generationDecode (names ns) older = some file →
      generationDecode (names ns) newer = some file' → file.epoch = file'.epoch →
      file.logical = file'.logical → file.generation < file'.generation →
      (file'.epoch = (view events).epoch → ∃ r snap,
        .minted r snap ∈ (worldMachine names).outputs (worldInit epochs) events ∧
        snap.ns = ns ∧ snap.encoded = newer) →
      ∀ later, generationStale (names ns) (zone (events ++ later)) older = .ok := by
  intro zone view
  have valid := runValid (initValid names epochs) events
  have split (later : List KeyEvent) : zone (events ++ later) =
      ((worldMachine names).after ((worldMachine names).after (worldInit epochs) events) later).zones ns := by
    simp only [zone]
    rw [Machine.afterAppend]
  have onward (later : List KeyEvent) {key : Bytes} (stale : generationStale (names ns) (zone events) key = .ok) :
      generationStale (names ns) (zone (events ++ later)) key = .ok := by
    rw [split]
    exact staleStays (runMoved valid later ns (valid.bounded ns)) stale
  refine ⟨fun key file decoded => ⟨fun stale later => ?_,liveVerdict decoded⟩,?_,?_⟩
  · exact onward later (staleVerdict decoded stale)
  · intro later _ _ serial
    simp only [view] at serial ⊢
    simp only [split] at serial ⊢
    refine ⟨fun front call back same => ?_,?_,fun front back same key file decoded => ?_⟩
    · subst same
      exact quietRefuses valid serial
    · rw [runQuiet valid serial]
    · subst same
      rw [runUnpublished valid serial]
      exact ⟨staleVerdict decoded,liveVerdict decoded⟩
  · intro older newer file file' decoded decoded' epoch logical lower minted later
    refine onward later (staleKey.mpr ⟨file,decoded,?_⟩)
    by_cases current : file'.epoch = (view events).epoch
    · right
      obtain ⟨r,snap,given,here,encoded⟩ := minted current
      obtain ⟨g,encodes,reached⟩ := runIssued (initValid names epochs) events given
      subst here encoded
      rw [encodes,decodeEncode] at decoded'
      cases Option.some.inj decoded'
      rw [logical]
      exact UInt64.lt_iff_toNat_lt.mpr ((UInt64.lt_iff_toNat_lt.mp lower).trans_le reached)
    · exact .inl fun same => current (epoch.symm.trans same)

theorem viewClassifiesPurged :
    let run : List KeyEvent := [.enter ⟨0,0⟩ true,.leave ⟨0,0⟩ 0 (some [47,97]) (true,true),
      .invalidate 0 ⟨[42],false,none,true,[]⟩,.enter ⟨1,0⟩ true,.leave ⟨1,0⟩ 0 (some [47,97]) (true,true)]
    let zone := ((worldMachine fun _ => siteName).after (worldInit fun _ => siteEpoch) run).zones 0
    (generationView zone).verdict ⟨[47,97],siteEpoch.bytes,1⟩ = .stale ∧
    generationStale siteName zone (generationEncode siteName siteEpoch 1 [47,97]) = .ok ∧
    generationStale siteName zone (generationEncode siteName siteEpoch 2 [47,97]) ≠ .ok := by
  intro run zone
  have all := viewClassifies (fun _ => siteName) (fun _ => siteEpoch) run 0
  exact ⟨by decide,by simpa using (all.1 _ _ (decodeEncode ..)).1 (by decide) [],
    (all.1 _ _ (decodeEncode ..)).2 (by decide)⟩

end runs
end CachePurge
