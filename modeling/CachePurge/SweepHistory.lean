import CachePurge.Selectors
import CachePurge.SweepRuns

/-! What a pass does to the files it selects, over a whole pass: the history of its
unlinks and of the cache nodes it invalidates, against the files it started with. -/
namespace CachePurge
open General

section history
variable (native : Native) (names : Nat → Name) (epochs : Nat → Epoch) (conf : WalkConf) (target : Target)
  (tree : Tree) (start : Sweep)

/- The file was there when the pass started, and the guards and the count let its
entry through. -/
structure Judged (path : Bytes) (entry : EntryKey) : Prop where
  formed : ∃ content, start.files path = some content ∧ entryOf native path content = some entry
  open_ : target.guarded conf path = false
  counted : entry.count target.wanted = target.wanted

structure Picked (path : Bytes) (entry : EntryKey) : Prop extends Judged native conf target start path entry where
  selected : target.selects entry = true

structure Recorded (past : List SweepOutput) (s : Sweep) (p : Pass) : Prop where
  passing : Passing native names epochs conf target tree start s p
  judging : ∀ path v entry, p.stage = .judging path v entry → Judged native conf target start path entry
  unlinking : ∀ path v entry, p.stage = .unlinking path v entry → Picked native conf target start path entry ∧
    (target.exact = true → .node path ∈ past)
  nodes : ∀ path, .node path ∈ past → target.exact = true ∧ ∃ entry, Picked native conf target start path entry
  unlinked : ∀ ns path content, .unlinked ns path content ∈ past →
    (∃ entry, Picked native conf target start path entry) ∧ (target.exact = true → .node path ∈ past)
  removed : ∀ path content, start.files path = some content → s.files path = some content ∨
    .unlinked target.ns path content ∈ past

variable {native names epochs conf target tree start} {keyOf : Bytes → Bytes}

theorem pickedMember {past out : List SweepOutput} {path : Bytes} {P : Prop}
    (earlier : P → .node path ∈ past) : P → .node path ∈ past ++ out :=
  fun h => List.mem_append_left _ (earlier h)

theorem recordedSilent {past : List SweepOutput} {s s' : Sweep} {p q : Pass}
    (recorded : Recorded native names epochs conf target tree start past s p)
    (passing : Passing native names epochs conf target tree start s' q) (files : s'.files = s.files)
    (judging : ∀ path v entry, q.stage = .judging path v entry → Judged native conf target start path entry)
    (unlinking : ∀ path v entry, q.stage ≠ .unlinking path v entry) :
    Recorded native names epochs conf target tree start (past ++ []) s' q := by
  rw [List.append_nil]
  exact ⟨passing,judging,fun path v entry at_ => absurd at_ (unlinking path v entry),recorded.nodes,recorded.unlinked,
    fun path content there => files ▸ recorded.removed path content there⟩

theorem walkingQuiet {stage : Stage} (walking : stage = .walking) {path : Bytes} {v : FileVisit} {entry : EntryKey} :
    stage ≠ .judging path v entry ∧ stage ≠ .unlinking path v entry := by
  rw [walking]
  exact ⟨by simp,by simp⟩

theorem recordedWalking {past : List SweepOutput} {s s' : Sweep} {p q : Pass}
    (recorded : Recorded native names epochs conf target tree start past s p)
    (passing : Passing native names epochs conf target tree start s' q) (files : s'.files = s.files)
    (walking : q.stage = .walking) : Recorded native names epochs conf target tree start (past ++ []) s' q :=
  recordedSilent recorded passing files (fun _ _ _ at_ => absurd at_ (walkingQuiet walking).1)
    fun _ _ _ => (walkingQuiet walking).2

theorem readRecorded {past : List SweepOutput} {s : Sweep} {p : Pass} (recorded : Recorded native names epochs conf target tree start past s p)
    {path : Bytes} {v : FileVisit}
    (next : Passing native names epochs conf target tree start
      {s with pass := some (p.read native path v (s.files path))} (p.read native path v (s.files path))) :
    Recorded native names epochs conf target tree start (past ++ [])
      {s with pass := some (p.read native path v (s.files path))} (p.read native path v (s.files path)) := by
  have covers := recorded.passing.covers
  rcases readCases native path v (s.files path) p with ⟨entry,text,open_,there,formed,counted,same⟩ | same | same
  · refine recordedSilent recorded next rfl (fun other w found at_ => ?_) fun other w found at_ => ?_
    · rw [same] at at_
      cases at_
      rw [covers.seeks,covers.walks] at open_
      rw [covers.seeks] at counted
      exact ⟨⟨text,recorded.passing.shrunk path text there,formed⟩,open_,counted⟩
    · rw [same] at at_
      contradiction
  · exact recordedWalking recorded next rfl (by rw [same])
  · exact recordedWalking recorded next rfl (by rw [same])

theorem judgeRecorded {past : List SweepOutput} {s : Sweep} {p : Pass} (recorded : Recorded native names epochs conf target tree start past s p)
    {path : Bytes} {v : FileVisit} {entry : EntryKey} (at_ : p.stage = .judging path v entry)
    (next : Passing native names epochs conf target tree start
      {s with pass := some (p.judge names s.world.zones path v entry).1} (p.judge names s.world.zones path v entry).1) :
    Recorded native names epochs conf target tree start (past ++ (p.judge names s.world.zones path v entry).2)
      {s with pass := some (p.judge names s.world.zones path v entry).1} (p.judge names s.world.zones path v entry).1 := by
  have seeks := recorded.passing.covers.seeks
  cases verdict : p.verdict names s.world.zones entry with
  | false =>
    simp only [Pass.judge,verdict,Bool.false_eq_true,if_false] at next ⊢
    exact recordedWalking recorded next rfl rfl
  | true =>
    have picked : Picked native conf target start path entry := by
      refine ⟨recorded.judging path v entry at_,?_⟩
      simp only [Pass.verdict,Bool.and_eq_true,seeks] at verdict
      exact verdict.2
    simp only [Pass.judge,verdict,if_true,seeks] at next ⊢
    refine ⟨next,fun other w found here => ?_,fun other w found here => ?_,fun other member => ?_,
      fun ns other content member => ?_,fun other content there => ?_⟩
    · simp at here
    · cases here
      exact ⟨picked,fun exact => List.mem_append_right _ (by simp [exact])⟩
    · rcases List.mem_append.mp member with old | new
      · exact recorded.nodes other old
      · split at new
        · rename_i exact
          cases List.mem_singleton.mp new
          exact ⟨exact,entry,picked⟩
        · simp at new
    · rcases List.mem_append.mp member with old | new
      · obtain ⟨there,node⟩ := recorded.unlinked ns other content old
        exact ⟨there,pickedMember node⟩
      · split at new <;> simp at new
    · rcases recorded.removed other content there with kept | gone
      · exact .inl kept
      · exact .inr (List.mem_append_left _ gone)

theorem unlinkRecorded {past : List SweepOutput} {s : Sweep} {p : Pass} (recorded : Recorded native names epochs conf target tree start past s p)
    {path : Bytes} {v : FileVisit} {entry : EntryKey} (at_ : p.stage = .unlinking path v entry)
    (next : Passing native names epochs conf target tree start
      {s with pass := some (p.unlink path v entry s.files).1, files := (p.unlink path v entry s.files).2.1}
      (p.unlink path v entry s.files).1) :
    Recorded native names epochs conf target tree start (past ++ (p.unlink path v entry s.files).2.2)
      {s with pass := some (p.unlink path v entry s.files).1, files := (p.unlink path v entry s.files).2.1}
      (p.unlink path v entry s.files).1 := by
  have seeks := recorded.passing.covers.seeks
  obtain ⟨picked,node⟩ := recorded.unlinking path v entry at_
  rcases unlinkCases path v entry s.files p with ⟨text,there,_,same⟩ | ⟨_,same⟩ | ⟨_,same⟩
  · rw [same] at next ⊢
    simp only [seeks] at next ⊢
    refine ⟨next,fun _ _ _ at_ => absurd at_ (walkingQuiet rfl).1,fun _ _ _ at_ => absurd at_ (walkingQuiet rfl).2,
      fun other member => ?_,fun ns other content member => ?_,fun other content before => ?_⟩
    · rcases List.mem_append.mp member with old | new
      · exact recorded.nodes other old
      · simp at new
    · rcases List.mem_append.mp member with old | new
      · obtain ⟨earlier,noted⟩ := recorded.unlinked ns other content old
        exact ⟨earlier,pickedMember noted⟩
      · cases List.mem_singleton.mp new
        exact ⟨⟨entry,picked⟩,pickedMember node⟩
    · by_cases here : other = path
      · subst here
        have same := recorded.passing.shrunk other text there
        rw [before] at same
        cases Option.some.inj same
        exact .inr (List.mem_append_right _ (List.mem_singleton.mpr rfl))
      · rcases recorded.removed other content before with kept | gone
        · exact .inl (by simpa only [Function.update_of_ne here] using kept)
        · exact .inr (List.mem_append_left _ gone)
  all_goals
    rw [same] at next ⊢
    exact recordedWalking recorded next rfl rfl

theorem stepRecorded (describes : tree.Describes conf.root start.files) {past : List SweepOutput} {s : Sweep}
    {e : SweepEvent} (quiet : e.quiet = true)
    (recorded : ∃ p, Recorded native names epochs conf target tree start past s p) :
    ∃ p, Recorded native names epochs conf target tree start (past ++ (s.step native names keyOf e).2)
      (s.step native names keyOf e).1 p := by
  obtain ⟨p,recorded⟩ := recorded
  obtain ⟨q,next⟩ := @quietPassing native names epochs keyOf conf target tree start describes s e quiet
    ⟨p,recorded.passing⟩
  have here := recorded.passing.here
  cases e with
  | key e =>
    have same : p = q := by
      have now := next.here
      simp only [Sweep.step,here] at now
      exact Option.some.inj now
    subst same
    have apart (path : Bytes) : SweepOutput.node path ∉ (s.world.step names e).2.map SweepOutput.key := by simp
    have kept (ns : Option Nat) (path content : Bytes) :
        SweepOutput.unlinked ns path content ∉ (s.world.step names e).2.map SweepOutput.key := by simp
    refine ⟨p,next,recorded.judging,fun path v entry at_ => ?_,fun path member => ?_,fun ns path content member => ?_,
      fun path content there => ?_⟩
    · exact ⟨(recorded.unlinking path v entry at_).1,pickedMember (recorded.unlinking path v entry at_).2⟩
    · exact recorded.nodes path ((List.mem_append.mp member).resolve_right (apart path))
    · obtain ⟨there,node⟩ := recorded.unlinked ns path content ((List.mem_append.mp member).resolve_right (kept ns path content))
      exact ⟨there,pickedMember node⟩
    · exact (recorded.removed path content there).imp_right (List.mem_append_left _)
  | advance =>
    simp only [Sweep.step,here,Sweep.advance] at next ⊢
    cases stage : p.stage with
    | walking =>
      simp only [stage] at next ⊢
      cases Option.some.inj next.here
      refine ⟨p.walk,recordedSilent recorded next rfl ?_ ?_⟩ <;>
      · intro path v entry at_
        simp only [Pass.walk] at at_
        cases result : (walkTurn p.conf p.tree p.cursor).2 <;> simp [result] at at_
    | reading path v =>
      simp only [stage] at next ⊢
      cases Option.some.inj next.here
      exact ⟨_,readRecorded recorded next⟩
    | judging path v entry =>
      simp only [stage] at next ⊢
      cases Option.some.inj next.here
      exact ⟨_,judgeRecorded recorded stage next⟩
    | unlinking path v entry =>
      simp only [stage] at next ⊢
      cases Option.some.inj next.here
      exact ⟨_,unlinkRecorded recorded stage next⟩
    | ended rc =>
      simp only [List.append_nil]
      exact ⟨p,recorded⟩
  | store path content => contradiction
  | remove path => contradiction
  | start conf target tree => contradiction

theorem startRecorded (world : start.world.Valid names epochs) (describes : tree.Describes conf.root start.files) :
    Recorded native names epochs conf target tree start []
      (start.step native names keyOf (.start conf target tree)).1 (.begin conf target tree start.pass) :=
  ⟨startPassing world describes,fun _ _ _ at_ => absurd at_ (walkingQuiet rfl).1,
    fun _ _ _ at_ => absurd at_ (walkingQuiet rfl).2,fun _ member => by simp at member,
    fun _ _ _ member => by simp at member,fun _ _ there => .inl there⟩

theorem passSelects (world : start.world.Valid names epochs) (describes : tree.Describes conf.root start.files)
    (plain : target.ns = none) {events : List SweepEvent} (quiet : ∀ e ∈ events, e.quiet = true) {p : Pass} {rc : Rc}
    (here : ((sweepMachine native names keyOf).after
      (start.step native names keyOf (.start conf target tree)).1 events).pass = some p)
    (ended : p.stage = .ended rc) (scanned : p.cursor.scanErrors = 0) (deleted : p.deleteErrors = 0)
    {path content : Bytes} {entry : EntryKey} (there : start.files path = some content)
    (formed : entryOf native path content = some entry) (inside : Below conf.root path)
    (open_ : target.guarded conf path = false) :
    let selected := entry.count target.wanted = target.wanted ∧ target.selects entry = true
    let outputs := (sweepMachine native names keyOf).outputs
      (start.step native names keyOf (.start conf target tree)).1 events
    (.unlinked none path content ∈ outputs ↔ selected) ∧ (.node path ∈ outputs ↔ target.exact = true ∧ selected) := by
  intro selected outputs
  obtain ⟨q,recorded⟩ := (sweepMachine native names keyOf).tracksWhile
    (P := fun past s => ∃ p, Recorded native names epochs conf target tree start past s p)
    ⟨_,startRecorded world describes⟩ (fun past s e => stepRecorded describes) quiet
  rw [List.nil_append] at recorded
  cases Option.some.inj (recorded.passing.here.symm.trans here)
  have pickedSelected {entry' : EntryKey} (picked : Picked native conf target start path entry') : selected := by
    obtain ⟨text,found,read⟩ := picked.formed
    rw [there] at found
    cases Option.some.inj found
    rw [formed] at read
    cases Option.some.inj read
    exact ⟨picked.counted,picked.selected⟩
  have gone (picks : selected) : .unlinked none path content ∈ outputs := by
    rw [← plain]
    refine (recorded.removed path content there).resolve_left fun kept => ?_
    refine passedClean recorded.passing ended scanned deleted path entry ⟨⟨content,kept,formed⟩,?_,picks.1,picks.2,open_,inside⟩
    intro ns of_
    rw [plain] at of_
    contradiction
  refine ⟨⟨fun member => ?_,gone⟩,fun member => ?_,fun picks => ?_⟩
  · obtain ⟨entry',picked⟩ := (recorded.unlinked none path content member).1
    exact pickedSelected picked
  · obtain ⟨exact,entry',picked⟩ := recorded.nodes path member
    exact ⟨exact,pickedSelected picked⟩
  · exact (recorded.unlinked none path content (gone picks.2)).2 picks.1

end history

section selectors

theorem partialSelector (pre : Bytes) : purgePartial (pre ++ [star]) = ⟨none,pre,false⟩ := by
  simp [purgePartial]

theorem queuedSelector (names : Nat → Name) (namespaces : List Nat) (poolFound : Bool) (t : TaskId) {item : Item}
    (root : Bytes) (w : Work) {pre : Bytes} (key : item.key = 76 :: (pre ++ [star])) :
    (w.begin names namespaces poolFound t item root).target = ⟨none,pre,false⟩ := by
  simp [Work.begin,Work.target,key]

inductive Wildcard (pre : Bytes) : Target → Prop where
  | foreground : Wildcard pre (purgePartial (pre ++ [star]))
  | background {names namespaces poolFound t item root} {w : Work} (key : item.key = 76 :: (pre ++ [star])) :
      Wildcard pre (w.begin names namespaces poolFound t item root).target

theorem wildcardTarget {pre : Bytes} {target : Target} (wildcard : Wildcard pre target) : target = ⟨none,pre,false⟩ := by
  cases wildcard with
  | foreground => exact partialSelector pre
  | background key => exact queuedSelector _ _ _ _ _ _ key

variable {native : Native} {names : Nat → Name} {keyOf : Bytes → Bytes} {epochs : Nat → Epoch}

theorem sweepWorld (s : Sweep) (e : SweepEvent) (valid : s.world.Valid names epochs) :
    (s.step native names keyOf e).1.world.Valid names epochs := by
  cases e with
  | key e => exact stepValid s.world e valid
  | store path content =>
    simp only [Sweep.step]
    split <;> exact valid
  | remove path => exact valid
  | start conf target tree => exact valid
  | advance =>
    simp only [Sweep.step]
    split
    · exact valid
    · rename_i p here
      unfold Sweep.advance
      cases p.stage <;> exact valid

theorem sweepRunWorld (files : Files) (front : List SweepEvent) :
    ((sweepMachine native names keyOf).after (sweepInit epochs files) front).world.Valid names epochs :=
  (sweepMachine native names keyOf).invariant (P := fun s => s.world.Valid names epochs) sweepWorld
    (initValid names epochs) front

theorem longerDiffers {key k : Bytes} (longer : key ++ [lineFeed] <+: k) : k ≠ key := by
  rintro rfl
  have := longer.length_le
  simp at this

def siteEntry (key : Bytes) : Bytes :=
  let start := [((343 + key.length) % 256).toUInt8,((343 + key.length) / 256).toUInt8]
  5 :: (List.replicate 47 0 ++ [106,91,28,2,0,0] ++ start ++ start ++ List.replicate 278 0) ++
    keyMarker ++ key ++ [lineFeed]

def siteFiles (key : Bytes) : Files := Function.update (fun _ => none) sitePath (some (siteEntry key))

theorem siteHeld (key : Bytes) : siteFiles key sitePath = some (siteEntry key) := Function.update_self ..

def siteBegun (key : Bytes) (target : Target) : Sweep :=
  (siteMachine.step (sweepInit (fun _ => siteEpoch) (siteFiles key)) (.start ⟨posix,[47,99],[]⟩ target siteTree)).1

def sitePass : List SweepEvent := List.replicate 7 .advance

theorem sitePassQuiet : ∀ e ∈ sitePass, SweepEvent.quiet e = true := by
  intro e member
  rw [List.eq_of_mem_replicate member]
  rfl

/- An exact purge that knows variants deletes the files of its key and of no other,
unless a stored key goes on after the purge key with a newline. -/
theorem variantsExact (native : Native) (names : Nat → Name) (keyOf : Bytes → Bytes) (epochs : Nat → Epoch)
    (files : Files) (front : List SweepEvent) :
    let machine := sweepMachine native names keyOf
    let s := machine.after (sweepInit epochs files) front
    ∀ key target conf tree events p rc, deleteVariants key = some target → key.length < keyMaxLen →
      tree.Describes conf.root s.files → (∀ e ∈ events, SweepEvent.quiet e = true) →
      let begun := (machine.step s (.start conf target tree)).1
      (machine.after begun events).pass = some p → p.stage = .ended rc → p.cursor.scanErrors = 0 →
      p.deleteErrors = 0 →
      ∀ path content entry, s.files path = some content → entryOf native path content = some entry →
        Below conf.root path → isProtectedPath conf path = false → isCacheFile conf.platform path = true →
        (((.unlinked none path content ∈ machine.outputs begun events ↔ entry.key = key) ∧
          (.node path ∈ machine.outputs begun events ↔ entry.key = key)) ↔ ¬ key ++ [lineFeed] <+: entry.key) := by
  intro machine s key target conf tree events p rc walks short describes quiet begun here ended scanned deleted
    path content entry there formed inside unprotected named
  unfold deleteVariants at walks
  split at walks <;> try contradiction
  rename_i nonempty
  cases Option.some.inj walks
  have open_ : Target.guarded conf ⟨none,key,true⟩ path = false := by
    simp only [Target.guarded,unprotected,named,Bool.not_true,Bool.or_self,Bool.false_or,Bool.or_eq_false_iff,
      decide_eq_false_iff_not,Bool.true_and]
    exact ⟨by omega,by simpa using nonempty⟩
  obtain ⟨unlinked,node⟩ := passSelects (sweepRunWorld files front) describes rfl quiet here ended scanned deleted
    there formed inside open_
  have selected := @exactSelected ⟨none,key,true⟩ entry rfl
  have removes : .unlinked none path content ∈ machine.outputs begun events ↔
      entry.key = key ∨ key ++ [lineFeed] <+: entry.key := unlinked.trans selected
  have invalidates : .node path ∈ machine.outputs begun events ↔
      entry.key = key ∨ key ++ [lineFeed] <+: entry.key :=
    node.trans ((and_iff_right rfl).trans selected)
  rw [removes,invalidates]
  constructor
  · rintro ⟨same,_⟩ longer
    exact longerDiffers longer (same.mp (.inr longer))
  · intro apart
    have same : entry.key = key ∨ key ++ [lineFeed] <+: entry.key ↔ entry.key = key := or_iff_left apart
    exact ⟨same,same⟩

theorem variantsExactSite :
    .unlinked none sitePath (siteEntry [47,97]) ∈ siteMachine.outputs (siteBegun [47,97] ⟨none,[47,97],true⟩) sitePass ∧
    .node sitePath ∈ siteMachine.outputs (siteBegun [47,97] ⟨none,[47,97],true⟩) sitePass := by
  have ended : (siteMachine.after (siteBegun [47,97] ⟨none,[47,97],true⟩) sitePass).pass.map
      (fun p => (p.stage,p.cursor.scanErrors,p.deleteErrors)) = some (.ended .ok,0,0) := by decide +kernel
  obtain ⟨p,here,same⟩ := Option.map_eq_some_iff.mp ended
  simp only [Prod.mk.injEq] at same
  have formed : (entryOf siteNative sitePath (siteEntry [47,97])).map EntryKey.key = some [47,97] := by decide +kernel
  obtain ⟨entry,read,key⟩ := Option.map_eq_some_iff.mp formed
  have exact := variantsExact siteNative (fun _ => siteName) (fun _ => siteKey) (fun _ => siteEpoch)
    (siteFiles [47,97]) [] [47,97] ⟨none,[47,97],true⟩ ⟨posix,[47,99],[]⟩ siteTree sitePass p .ok rfl (by decide)
    (siteListed _) sitePassQuiet here same.1 same.2.1 same.2.2 sitePath (siteEntry [47,97]) entry
    (siteHeld _) read ⟨sitePath.drop 3,by decide +kernel⟩ (by decide +kernel) (by decide +kernel)
  rw [key] at exact
  have both := exact.mpr (by decide)
  exact ⟨both.1.mpr rfl,both.2.mpr rfl⟩

theorem variantsExactNewline :
    (entryOf siteNative sitePath (siteEntry [47,97,10,98])).map EntryKey.key = some [47,97,10,98] ∧
    ¬ ((.unlinked none sitePath (siteEntry [47,97,10,98]) ∈
        siteMachine.outputs (siteBegun [47,97,10,98] ⟨none,[47,97],true⟩) sitePass ↔
      ([47,97,10,98] : Bytes) = [47,97]) ∧
      (.node sitePath ∈ siteMachine.outputs (siteBegun [47,97,10,98] ⟨none,[47,97],true⟩) sitePass ↔
        ([47,97,10,98] : Bytes) = [47,97])) := by
  decide +kernel

/- A wildcard purge deletes the files whose key starts with its prefix, unless the
prefix is a key with the newline behind it, or the two share a zero byte after
which they differ. -/
theorem wildcardPrefix (native : Native) (names : Nat → Name) (keyOf : Bytes → Bytes) (epochs : Nat → Epoch)
    (files : Files) (front : List SweepEvent) :
    let machine := sweepMachine native names keyOf
    let s := machine.after (sweepInit epochs files) front
    ∀ pre target conf tree events p rc, Wildcard pre target → pre.length < keyMaxLen →
      tree.Describes conf.root s.files → (∀ e ∈ events, SweepEvent.quiet e = true) →
      let begun := (machine.step s (.start conf target tree)).1
      (machine.after begun events).pass = some p → p.stage = .ended rc → p.cursor.scanErrors = 0 →
      p.deleteErrors = 0 →
      ∀ path content entry, s.files path = some content → entryOf native path content = some entry →
        Below conf.root path → isProtectedPath conf path = false → isCacheFile conf.platform path = true →
        ((.unlinked none path content ∈ machine.outputs begun events ↔
            pre.length ≤ entry.key.length ∧ lowered (entry.key.take pre.length) = lowered pre) ↔
          lowered pre ≠ lowered entry.key ++ [lineFeed] ∧
          (Cut entry.key pre → pre.length ≤ entry.key.length + 1 → lowered pre <+: lowered entry.key)) := by
  intro machine s pre target conf tree events p rc wildcard short describes quiet
  rw [wildcardTarget wildcard]
  intro begun here ended scanned deleted path content entry there formed inside unprotected named
  have open_ : Target.guarded conf ⟨none,pre,false⟩ path = false := by
    simp [Target.guarded,unprotected,named,short]
  obtain ⟨unlinked,_⟩ := passSelects (sweepRunWorld files front) describes rfl quiet here ended scanned deleted
    there formed inside open_
  have selected := @prefixSelected ⟨none,pre,false⟩ entry rfl
  have removes : .unlinked none path content ∈ machine.outputs begun events ↔
      lowered pre <+: lowered entry.key ∨ lowered pre = lowered entry.key ++ [lineFeed] ∨
        (Cut entry.key pre ∧ pre.length ≤ entry.key.length + 1) := unlinked.trans selected
  have asked : (pre.length ≤ entry.key.length ∧ lowered (entry.key.take pre.length) = lowered pre) ↔
      lowered pre <+: lowered entry.key := by
    rw [loweredPrefix]
    refine ⟨And.right,fun found => ⟨?_,found⟩⟩
    have bound := found.length_le
    simpa using bound
  rw [removes,asked]
  have apart : lowered pre = lowered entry.key ++ [lineFeed] → ¬ lowered pre <+: lowered entry.key := by
    intro same found
    have bound := found.length_le
    rw [same] at bound
    simp at bound
  rw [extraCases apart,and_imp]

theorem wildcardPrefixSite :
    .unlinked none sitePath (siteEntry [47,65,98]) ∈
      siteMachine.outputs (siteBegun [47,65,98] (purgePartial ([47,97] ++ [star]))) sitePass := by
  have ended : (siteMachine.after (siteBegun [47,65,98] (purgePartial ([47,97] ++ [star]))) sitePass).pass.map
      (fun p => (p.stage,p.cursor.scanErrors,p.deleteErrors)) = some (.ended .ok,0,0) := by decide +kernel
  obtain ⟨p,here,same⟩ := Option.map_eq_some_iff.mp ended
  simp only [Prod.mk.injEq] at same
  have formed : (entryOf siteNative sitePath (siteEntry [47,65,98])).map EntryKey.key = some [47,65,98] := by
    decide +kernel
  obtain ⟨entry,read,key⟩ := Option.map_eq_some_iff.mp formed
  have starts := wildcardPrefix siteNative (fun _ => siteName) (fun _ => siteKey) (fun _ => siteEpoch)
    (siteFiles [47,65,98]) [] [47,97] _ ⟨posix,[47,99],[]⟩ siteTree sitePass p .ok .foreground (by decide)
    (siteListed _) sitePassQuiet here same.1 same.2.1 same.2.2 sitePath (siteEntry [47,65,98]) entry
    (siteHeld _) read ⟨sitePath.drop 3,by decide +kernel⟩ (by decide +kernel) (by decide +kernel)
  rw [key] at starts
  exact (starts.mpr ⟨by decide,fun _ _ => by decide⟩).mpr (by decide)

theorem wildcardPrefixNewline :
    (entryOf siteNative sitePath (siteEntry [47,97])).map EntryKey.key = some [47,97] ∧
    ¬ (.unlinked none sitePath (siteEntry [47,97]) ∈
        siteMachine.outputs (siteBegun [47,97] (purgePartial ([47,97,10] ++ [star]))) sitePass ↔
      ([47,97,10] : Bytes).length ≤ ([47,97] : Bytes).length ∧
        lowered (([47,97] : Bytes).take ([47,97,10] : Bytes).length) = lowered [47,97,10]) := by
  decide +kernel

end selectors
end CachePurge
