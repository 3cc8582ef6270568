import CachePurge.Sweep

/-! What a pass may unlink. A key that is stale stays stale, and a path keeps its
key whatever is stored there, so the verdict on the entry that was read still holds
of the file that the unlink removes. -/
namespace CachePurge
open General

section safety
variable (native : Native) (names : Nat → Name) (keyOf : Bytes → Bytes) (epochs : Nat → Epoch)

def Keyed (files : Files) (path : Bytes) : Prop :=
  ∀ content, files path = some content → (entryOf native path content).map EntryKey.key = some (keyOf path)

/- Files may be malformed; those that are not have the key of their path. -/
def Placed (files : Files) : Prop :=
  ∀ path content entry, files path = some content → entryOf native path content = some entry →
    entry.key = keyOf path

def Stage.Sound (zones : Nat → Zone) (files : Files) (target : Target) : Stage → Prop
  | .judging path _ entry => entry.key = keyOf path ∧ Keyed native keyOf files path
  | .unlinking path _ _ => Keyed native keyOf files path ∧
      ∀ ns, target.ns = some ns → generationStale (names ns) (zones ns) (keyOf path) = .ok
  | _ => True

structure Sweep.Sound (s : Sweep) : Prop where
  world : s.world.Valid names epochs
  placed : Placed native keyOf s.files
  stage : ∀ p, s.pass = some p → p.stage.Sound native names keyOf s.world.zones s.files p.target

variable {native names keyOf epochs}

theorem initSound {files : Files} (placed : Placed native keyOf files) :
    (sweepInit epochs files).Sound native names keyOf epochs :=
  ⟨initValid names epochs,placed,fun p here => by simp [sweepInit] at here⟩

theorem updatedFile {files : Files} {path other content : Bytes} {value : Option Bytes}
    (found : Function.update files path value other = some content) :
    (other = path ∧ value = some content) ∨ files other = some content := by
  by_cases same : other = path
  · subst same
    rw [Function.update_self] at found
    exact .inl ⟨rfl,found⟩
  · rw [Function.update_of_ne same] at found
    exact .inr found

theorem removedFile {files : Files} {removed path content : Bytes}
    (found : Function.update files removed none path = some content) : files path = some content :=
  (updatedFile found).resolve_left fun here => by simp at here

theorem keyedStored {files : Files} {path stored content : Bytes}
    (formed : (entryOf native stored content).map EntryKey.key = some (keyOf stored))
    (keyed : Keyed native keyOf files path) :
    Keyed native keyOf (Function.update files stored (some content)) path := by
  intro other found
  rcases updatedFile found with ⟨rfl,same⟩ | earlier
  · cases Option.some.inj same
    exact formed
  · exact keyed other earlier

theorem keyedRemoved {files : Files} {path removed : Bytes} (keyed : Keyed native keyOf files path) :
    Keyed native keyOf (Function.update files removed none) path :=
  fun other found => keyed other (removedFile found)

theorem placedStored {files : Files} {stored content : Bytes}
    (formed : (entryOf native stored content).map EntryKey.key = some (keyOf stored))
    (placed : Placed native keyOf files) : Placed native keyOf (Function.update files stored (some content)) := by
  intro path other entry found read
  rcases updatedFile found with ⟨rfl,same⟩ | earlier
  · cases Option.some.inj same
    rw [read] at formed
    exact Option.some.inj formed
  · exact placed path other entry earlier read

theorem placedRemoved {files : Files} {removed : Bytes} (placed : Placed native keyOf files) :
    Placed native keyOf (Function.update files removed none) :=
  fun path other entry found read => placed path other entry (removedFile found) read

theorem stageMoved {zones zones' : Nat → Zone} {files files' : Files} {target : Target} {stage : Stage}
    (keyed : ∀ path, Keyed native keyOf files path → Keyed native keyOf files' path)
    (stale : ∀ ns key, generationStale (names ns) (zones ns) key = .ok →
      generationStale (names ns) (zones' ns) key = .ok)
    (sound : stage.Sound native names keyOf zones files target) :
    stage.Sound native names keyOf zones' files' target := by
  cases stage with
  | judging path v entry => exact ⟨sound.1,keyed path sound.2⟩
  | unlinking path v entry => exact ⟨keyed path sound.1,fun ns of_ => stale ns _ (sound.2 ns of_)⟩
  | _ => trivial

theorem walkSound (p : Pass) (zones : Nat → Zone) (files : Files) :
    p.walk.stage.Sound native names keyOf zones files p.walk.target := by
  simp only [Pass.walk]
  cases (walkTurn p.conf p.tree p.cursor).2 <;> trivial

/- The three ways a read ends: with the entry of the file that is there, with an
error that is counted, or with nothing to do. -/
theorem readCases (native : Native) (path : Bytes) (v : FileVisit) (content : Option Bytes) (p : Pass) :
    (∃ entry text, p.target.guarded p.conf path = false ∧ content = some text ∧
      entryOf native path text = some entry ∧ entry.count p.target.wanted = p.target.wanted ∧
      p.read native path v content = {p with stage := .judging path v entry}) ∨
    p.read native path v content = {p with stage := .walking, cursor := p.cursor.scanError} ∨
    p.read native path v content = {p with stage := .walking} := by
  unfold Pass.read
  simp only
  split
  · exact .inr (.inr rfl)
  · rename_i open_
    split
    · rename_i entry read
      split
      · rename_i counted
        refine .inl ⟨entry,content.getD [],by simpa using open_,?_,readSound read,counted,rfl⟩
        cases content with
        | some text => rfl
        | none =>
          unfold readKey at read
          split at read <;> try contradiction
          rename_i there
          unfold FileAnswers.on at there
          split at there <;> simp_all
      · exact .inr (.inr rfl)
    · exact .inr (.inl rfl)
    · exact .inr (.inr rfl)

theorem readKeyed {files : Files} (placed : Placed native keyOf files) (path : Bytes) (v : FileVisit)
    (p : Pass) (zones : Nat → Zone) : (p.read native path v (files path)).stage.Sound native names keyOf zones files
      (p.read native path v (files path)).target := by
  rcases readCases native path v (files path) p with ⟨entry,text,_,there,formed,_,same⟩ | same | same
  · rw [same]
    have key := placed path text entry there formed
    refine ⟨key,fun content found => ?_⟩
    rw [there] at found
    cases Option.some.inj found
    rw [formed,← key]
    rfl
  · rw [same]
    trivial
  · rw [same]
    trivial

theorem verdictStale {p : Pass} {zones : Nat → Zone} {entry : EntryKey}
    (verdict : p.verdict names zones entry = true) {ns : Nat} (of_ : p.target.ns = some ns) :
    generationStale (names ns) (zones ns) entry.key = .ok := by
  unfold Pass.verdict at verdict
  simp only [of_,Bool.and_eq_true,beq_iff_eq] at verdict
  exact verdict.1

theorem judgeSound {p : Pass} {zones : Nat → Zone} {files : Files} {path : Bytes} {v : FileVisit}
    {entry : EntryKey} (sound : (Stage.judging path v entry).Sound native names keyOf zones files p.target) :
    (p.judge names zones path v entry).1.stage.Sound native names keyOf zones files
      (p.judge names zones path v entry).1.target := by
  unfold Pass.judge
  split
  · rename_i verdict
    refine ⟨sound.2,fun ns of_ => ?_⟩
    rw [← sound.1]
    exact verdictStale verdict of_
  · trivial

/- What an unlink does: it removes the file, or it leaves the files as they are. -/
theorem unlinkCases (path : Bytes) (v : FileVisit) (entry : EntryKey) (files : Files) (p : Pass) :
    (∃ content, files path = some content ∧ v.unlinked = .ok ∧ p.unlink path v entry files =
      ({p with
        stage := .walking
        filesDeleted := saturate p.filesDeleted
        bytesDeleted := addSize p.bytesDeleted entry.fileSize},
        Function.update files path none,[.unlinked p.target.ns path content])) ∨
    (v.unlinked = .failed ∧ p.unlink path v entry files =
      ({p with stage := .walking, deleteErrors := saturate p.deleteErrors},files,[])) ∨
    ((files path = none ∨ v.unlinked.present = false) ∧
      p.unlink path v entry files = ({p with stage := .walking},files,[])) := by
  unfold Pass.unlink
  cases found : files path with
  | none => cases answer : v.unlinked <;> simp [Answer.present]
  | some content => cases answer : v.unlinked <;> simp [Answer.present]

theorem sweepStepSound (s : Sweep) (e : SweepEvent) (sound : s.Sound native names keyOf epochs) :
    (s.step native names keyOf e).1.Sound native names keyOf epochs := by
  cases e with
  | key e =>
    have moved := stepMoved names s.world e
    refine ⟨stepValid s.world e sound.world,sound.placed,fun p here => ?_⟩
    exact stageMoved (fun _ h => h) (fun ns _ stale => staleStays (moved ns (sound.world.bounded ns)) stale)
      (sound.stage p here)
  | store path content =>
    by_cases formed : (entryOf native path content).map EntryKey.key = some (keyOf path)
    · simp only [Sweep.step,formed,if_true]
      exact ⟨sound.world,placedStored formed sound.placed,fun p here =>
        stageMoved (fun _ => keyedStored formed) (fun _ _ stale => stale) (sound.stage p here)⟩
    · simp only [Sweep.step,formed,if_false]
      exact sound
  | remove path =>
    exact ⟨sound.world,placedRemoved sound.placed,fun p here =>
      stageMoved (fun _ => keyedRemoved) (fun _ _ stale => stale) (sound.stage p here)⟩
  | start conf target tree =>
    refine ⟨sound.world,sound.placed,fun p here => ?_⟩
    cases Option.some.inj here
    trivial
  | advance =>
    simp only [Sweep.step]
    cases here : s.pass with
    | none => exact sound
    | some p =>
      have stage := sound.stage p here
      simp only [Sweep.advance]
      cases at_ : p.stage with
      | walking =>
        refine ⟨sound.world,sound.placed,fun q same => ?_⟩
        cases Option.some.inj same
        exact walkSound p _ _
      | reading path v =>
        refine ⟨sound.world,sound.placed,fun q same => ?_⟩
        cases Option.some.inj same
        exact readKeyed sound.placed path v p _
      | judging path v entry =>
        refine ⟨sound.world,sound.placed,fun q same => ?_⟩
        cases Option.some.inj same
        rw [at_] at stage
        exact judgeSound stage
      | unlinking path v entry =>
        simp only
        rcases unlinkCases path v entry s.files p with ⟨_,_,_,same⟩ | ⟨_,same⟩ | ⟨_,same⟩
        · rw [same]
          exact ⟨sound.world,placedRemoved sound.placed,fun q this => by cases Option.some.inj this; trivial⟩
        · rw [same]
          exact ⟨sound.world,sound.placed,fun q this => by cases Option.some.inj this; trivial⟩
        · rw [same]
          exact ⟨sound.world,sound.placed,fun q this => by cases Option.some.inj this; trivial⟩
      | ended rc => exact ⟨sound.world,sound.placed,sound.stage⟩

theorem runSound {s : Sweep} (sound : s.Sound native names keyOf epochs) (events : List SweepEvent) :
    ((sweepMachine native names keyOf).after s events).Sound native names keyOf epochs :=
  (sweepMachine native names keyOf).invariant sweepStepSound sound events

theorem unlinkedBy {s : Sweep} {e : SweepEvent} {ns : Option Nat} {path content : Bytes}
    (out : .unlinked ns path content ∈ (s.step native names keyOf e).2) :
    (s.step native names keyOf e).1.world = s.world ∧ s.files path = some content ∧
    ∃ p v entry, s.pass = some p ∧ p.stage = .unlinking path v entry ∧ p.target.ns = ns := by
  cases e with
  | key e => simp [Sweep.step] at out
  | store stored content =>
    simp only [Sweep.step] at out
    split at out <;> simp at out
  | remove path => simp [Sweep.step] at out
  | start conf target tree => simp [Sweep.step] at out
  | advance =>
    simp only [Sweep.step] at out ⊢
    cases here : s.pass with
    | none => simp [here] at out
    | some p =>
      simp only [here,Sweep.advance] at out ⊢
      cases at_ : p.stage with
      | walking => simp [at_] at out
      | reading path v => simp [at_] at out
      | ended rc => simp [at_] at out
      | judging other v entry =>
        simp only [at_,Pass.judge] at out
        split at out
        · split at out <;> simp at out
        · simp at out
      | unlinking other v entry =>
        simp only [at_] at out
        rcases unlinkCases other v entry s.files p with ⟨text,found,_,same⟩ | ⟨_,same⟩ | ⟨_,same⟩
        · rw [same] at out
          cases List.mem_singleton.mp out
          exact ⟨rfl,found,p,v,entry,rfl,at_,rfl⟩
        · simp [same] at out
        · simp [same] at out

theorem unlinkedStale {s : Sweep} (sound : s.Sound native names keyOf epochs) {e : SweepEvent} {ns : Nat}
    {path content : Bytes} (out : .unlinked (some ns) path content ∈ (s.step native names keyOf e).2) :
    ∃ entry, entryOf native path content = some entry ∧
      generationStale (names ns) (s.world.zones ns) entry.key = .ok := by
  obtain ⟨_,found,p,v,judged,here,at_,of_⟩ := unlinkedBy out
  have stage := sound.stage p here
  rw [at_] at stage
  obtain ⟨entry,formed,key⟩ := Option.map_eq_some_iff.mp (stage.1 content found)
  exact ⟨entry,formed,by rw [key]; exact stage.2 ns of_⟩

theorem advanceFrame {s : Sweep} {path : Bytes}
    (changed : (s.step native names keyOf .advance).1.files path ≠ s.files path) :
    ∃ ns content, .unlinked ns path content ∈ (s.step native names keyOf .advance).2 := by
  simp only [Sweep.step] at changed ⊢
  cases here : s.pass with
  | none => simp [here] at changed
  | some p =>
    simp only [here,Sweep.advance] at changed ⊢
    cases at_ : p.stage with
    | unlinking other v entry =>
      simp only [at_] at changed ⊢
      rcases unlinkCases other v entry s.files p with ⟨text,_,_,same⟩ | ⟨_,same⟩ | ⟨_,same⟩
      · rw [same] at changed ⊢
        by_cases apart : path = other
        · subst apart
          exact ⟨_,text,List.mem_singleton.mpr rfl⟩
        · exact absurd (Function.update_of_ne apart _ _) changed
      · exact absurd (by rw [same]) changed
      · exact absurd (by rw [same]) changed
    | _ => simp [at_] at changed

theorem sweepProjects (native : Native) (names : Nat → Name) (keyOf : Bytes → Bytes) :
    (sweepMachine native names keyOf).Projects (worldMachine names) Sweep.world
      (fun | .key e => some e | _ => none) (fun | .key o => some o | _ => none) where
  kept s e outside := by
    cases e with
    | key e => contradiction
    | store path content =>
      simp only [sweepMachine,Sweep.step]
      split <;> exact ⟨rfl,rfl⟩
    | remove path => exact ⟨rfl,rfl⟩
    | start conf target tree => exact ⟨rfl,rfl⟩
    | advance =>
      simp only [sweepMachine,Sweep.step]
      cases here : s.pass with
      | none => exact ⟨rfl,rfl⟩
      | some p =>
        simp only [Sweep.advance]
        cases at_ : p.stage with
        | judging path v entry =>
          simp only [Pass.judge]
          split
          · split <;> exact ⟨trivial,rfl⟩
          · exact ⟨trivial,rfl⟩
        | unlinking path v entry =>
          simp only
          rcases unlinkCases path v entry s.files p with ⟨_,_,_,same⟩ | ⟨_,same⟩ | ⟨_,same⟩ <;>
          · rw [same]
            exact ⟨trivial,rfl⟩
        | _ => exact ⟨rfl,rfl⟩
  moved s e e' inside := by
    cases e with
    | key e =>
      cases Option.some.inj inside
      refine ⟨rfl,?_⟩
      simp only [sweepMachine,Sweep.step,List.filterMap_map]
      exact List.filterMap_some
    | _ => contradiction

theorem unlinkedNeverMinted {files : Files} (placed : Placed native keyOf files) (front back : List SweepEvent)
    {e : SweepEvent} {ns : Nat} {path content : Bytes} {entry : EntryKey}
    (out : .unlinked (some ns) path content ∈ (((sweepMachine native names keyOf).after
      (sweepInit epochs files) front).step native names keyOf e).2)
    (formed : entryOf native path content = some entry) {r : Request} {snap : Snapshot}
    (minted : .key (.minted r snap) ∈ (sweepMachine native names keyOf).outputs
      ((sweepMachine native names keyOf).after (sweepInit epochs files) (front ++ [e])) back)
    (distinct : names snap.ns = names ns → snap.ns = ns)
    (first : ∀ old, .key (.minted r old) ∈ (sweepMachine native names keyOf).outputs (sweepInit epochs files) front →
      ¬ (old.ns = snap.ns ∧ old.logical = snap.logical)) : snap.encoded ≠ entry.key := by
  have projects := sweepProjects native names keyOf
  have sound : ((sweepMachine native names keyOf).after (sweepInit epochs files) front).Sound native names keyOf
    epochs := runSound (initSound placed) front
  obtain ⟨found,formed',stale⟩ := unlinkedStale sound out
  rw [formed] at formed'
  cases Option.some.inj formed'
  obtain ⟨state,given⟩ := (sweepMachine native names keyOf).projected projects (sweepInit epochs files) front
  have seen (o : KeyOutput) (outs : List SweepOutput) : o ∈ outs.filterMap (fun | .key o => some o | _ => none) ↔
      .key o ∈ outs := by
    simp only [List.mem_filterMap]
    constructor
    · intro ⟨out,member,same⟩
      cases out <;> simp_all
    · exact fun member => ⟨_,member,rfl⟩
  rw [Machine.afterAppend] at minted
  have later := ((sweepMachine native names keyOf).projected projects ((((sweepMachine native names keyOf).after
    (sweepInit epochs files) front).step native names keyOf e).1) back).2
  rw [(unlinkedBy out).1] at later
  have minted' := (seen _ _).mpr minted
  refine staleNeverMinted sound.world stale distinct (fun old held => ?_) (later ▸ minted')
  refine first old ((seen _ _).mp ?_)
  rw [given]
  rw [state] at held
  exact runHeld _ held

end safety
end CachePurge
