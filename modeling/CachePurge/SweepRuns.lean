import CachePurge.SweepSafety

/-! What a pass leaves. While other processes only mint keys and invalidate, a
pass without errors has the files it selects and has not dealt with on its list:
the one file it works on and the visits the walk has still to make. -/
namespace CachePurge
open General

def Stage.visits : Stage → List (Bytes × FileVisit)
  | .reading path v => [(path,v)]
  | .judging path v _ => [(path,v)]
  | .unlinking path v _ => [(path,v)]
  | _ => []

def Pass.remaining (p : Pass) : List (Bytes × FileVisit) := p.stage.visits ++ p.cursor.pending p.conf p.tree

/- The answers of a tree that does not change: every file below the root is listed,
and no call says of a file that is there that it is gone or not a file. -/
structure Tree.Describes (tree : Tree) (root : Bytes) (files : Files) : Prop where
  listed : ∀ path, (files path).isSome → Below root path → ∃ v, (path,v) ∈ tree.visits (fun _ => false) root
  honest : ∀ path v, (path,v) ∈ tree.visits (fun _ => false) root → (files path).isSome →
    v.read.file ≠ .vanished ∧ v.read.regular = true ∧ v.unlinked.present = true

def SweepEvent.quiet : SweepEvent → Bool
  | .key _ | .advance => true
  | _ => false

/- A file that the pass of a target has to remove: the guards let it through, and
its entry passes every test, judged by the namespaces as they are in zones. -/
structure Chosen (native : Native) (names : Nat → Name) (conf : WalkConf) (target : Target) (zones : Nat → Zone)
    (files : Files) (path : Bytes) (entry : EntryKey) : Prop where
  formed : ∃ content, files path = some content ∧ entryOf native path content = some entry
  stale : ∀ ns, target.ns = some ns → generationStale (names ns) (zones ns) entry.key = .ok
  counted : entry.count target.wanted = target.wanted
  selected : target.selects entry = true
  open_ : target.guarded conf path = false
  inside : Below conf.root path

structure StaleFile (native : Native) (name : Name) (conf : WalkConf) (zone : Zone) (files : Files) (path : Bytes)
    (entry : EntryKey) : Prop where
  formed : ∃ content, files path = some content ∧ entryOf native path content = some entry
  stale : generationStale name zone entry.key = .ok
  inside : Below conf.root path
  unprotected : isProtectedPath conf path = false
  named : isCacheFile conf.platform path = true

theorem staleChosen {native : Native} {names : Nat → Name} {conf : WalkConf} {ns : Nat} {zones : Nat → Zone}
    {files : Files} {path : Bytes} {entry : EntryKey}
    (stale : StaleFile native (names ns) conf (zones ns) files path entry) :
    Chosen native names conf ⟨some ns,[],false⟩ zones files path entry := by
  refine ⟨stale.formed,fun n same => ?_,by simp [EntryKey.count,Target.wanted],by simp [Target.selects,Target.wanted],
    ?_,stale.inside⟩
  · cases Option.some.inj same
    exact stale.stale
  · simp [Target.guarded,stale.unprotected,stale.named,keyMaxLen]

section coverage
variable (native : Native) (names : Nat → Name) (conf : WalkConf) (zones : Nat → Zone)

def Stage.Coherent (files : Files) : Stage → Prop
  | .judging path _ entry | .unlinking path _ entry =>
    ∀ content, files path = some content → entryOf native path content = some entry
  | _ => True

variable (target : Target) (tree : Tree)

structure Pass.Covers (files : Files) (p : Pass) : Prop where
  walks : p.conf = conf
  seeks : p.target = target
  reads : p.tree = tree
  cursor : p.cursor.Valid
  fresh : p.cursor.started = false → p.cursor.scanErrors = 0
  running : p.stage ≠ .walking → p.cursor.started = true
  ended : ∀ rc, p.stage = .ended rc → p.cursor.frames = []
  coherent : p.stage.Coherent native files
  known : p.cursor.scanErrors = 0 → ∀ x ∈ p.remaining, x ∈ tree.visits (isProtectedPath conf) conf.root
  left : p.cursor.scanErrors = 0 → p.deleteErrors = 0 → ∀ path entry,
    Chosen native names conf target zones files path entry → ∃ v, (path,v) ∈ p.remaining

variable {native names conf zones target tree}

theorem walkStopped {p : Pass} (valid : p.cursor.Valid) {rc : Rc} (ended : p.walk.stage = .ended rc) :
    p.walk.cursor.frames = [] := by
  simp only [Pass.walk] at ended
  cases result : (walkTurn p.conf p.tree p.cursor).2 with
  | ended rc => exact (turned p.conf p.tree valid).stopped rc result
  | going => simp [result] at ended
  | visit path v => simp [result] at ended

theorem walkClean {p : Pass} (valid : p.cursor.Valid) (fresh : p.cursor.started = false → p.cursor.scanErrors = 0)
    (zero : p.walk.cursor.scanErrors = 0) : p.cursor.scanErrors = 0 := by
  cases running : p.cursor.started with
  | false => exact fresh running
  | true => exact Nat.le_zero.mp (((turned p.conf p.tree valid).errors running).trans zero.le)

theorem walkCovers {files : Files} {p : Pass} (covers : p.Covers native names conf zones target tree files)
    (walking : p.stage = .walking) : p.walk.Covers native names conf zones target tree files := by
  have turn := turned p.conf p.tree covers.cursor
  have todo (zero : p.walk.cursor.scanErrors = 0) : p.remaining = p.walk.remaining ∧ p.cursor.scanErrors = 0 := by
    constructor
    · have step := turn.clean zero
      simp only [Pass.remaining,walking,Stage.visits,List.nil_append,step,Pass.walk]
      cases (walkTurn p.conf p.tree p.cursor).2 <;> rfl
    · exact walkClean covers.cursor covers.fresh zero
  refine ⟨covers.walks,covers.seeks,covers.reads,turn.valid,fun idle => ?_,fun _ => turn.started,
    fun _ ended => walkStopped covers.cursor ended,?_,fun zero => ?_,fun zero undeleted => ?_⟩
  · exact absurd (turn.started.symm.trans idle) (by decide)
  · simp only [Pass.walk]
    cases (walkTurn p.conf p.tree p.cursor).2 <;> trivial
  · rw [← (todo zero).1]
    exact covers.known (todo zero).2
  · rw [← (todo zero).1]
    exact covers.left (todo zero).2 undeleted

theorem notWalking {stage : Stage} {x : Bytes × FileVisit} (working : stage.visits = [x]) : stage ≠ .walking := by
  rintro rfl
  contradiction

theorem saturateNonzero (n : UInt64) : saturate n ≠ 0 := by
  unfold saturate
  split
  · rename_i full
    rw [full]
    decide
  · intro zero
    have wraps := congrArg (· - 1) zero
    simp only [UInt64.add_sub_cancel] at wraps
    exact absurd wraps (by assumption)

theorem skipCovers {files files' : Files} {p q : Pass} (covers : p.Covers native names conf zones target tree files)
    {path : Bytes} {v : FileVisit} (working : p.stage.visits = [(path,v)]) (conf' : q.conf = p.conf)
    (target' : q.target = p.target) (tree' : q.tree = p.tree) (cursor : q.cursor = p.cursor)
    (walking : q.stage = .walking) (fewer : ∀ other content, files' other = some content → files other = some content)
    (finished : q.cursor.scanErrors = 0 → q.deleteErrors = 0 → p.deleteErrors = 0 ∧
      ∀ entry, ¬ Chosen native names conf target zones files' path entry) :
    q.Covers native names conf zones target tree files' := by
  have rest : q.remaining = p.cursor.pending p.conf p.tree := by
    simp [Pass.remaining,walking,Stage.visits,cursor,conf',tree']
  have split : p.remaining = (path,v) :: q.remaining := by
    rw [rest,Pass.remaining,working]
    rfl
  refine ⟨conf'.trans covers.walks,target'.trans covers.seeks,tree'.trans covers.reads,cursor ▸ covers.cursor,
    by rw [cursor]; exact covers.fresh,fun moved => absurd walking moved,fun rc ended => ?_,
    by rw [walking]; trivial,fun zero x member => ?_,fun zero undeleted other entry chosen => ?_⟩
  · rw [walking] at ended
    contradiction
  · refine covers.known (cursor ▸ zero) x ?_
    rw [split]
    exact List.mem_cons_of_mem _ member
  · obtain ⟨clean,gone⟩ := finished zero undeleted
    obtain ⟨content,there,formed⟩ := chosen.formed
    have before : Chosen native names conf target zones files other entry :=
      {chosen with formed := ⟨content,fewer other content there,formed⟩}
    obtain ⟨w,member⟩ := covers.left (cursor ▸ zero) clean other entry before
    rw [split] at member
    rcases List.mem_cons.mp member with here | later
    · cases here
      exact absurd chosen (gone entry)
    · exact ⟨w,later⟩

theorem onCovers {files : Files} {p q : Pass} (covers : p.Covers native names conf zones target tree files)
    {path : Bytes} {v : FileVisit} (working : p.stage.visits = [(path,v)]) (conf' : q.conf = p.conf)
    (target' : q.target = p.target) (tree' : q.tree = p.tree) (cursor : q.cursor = p.cursor)
    (same : q.stage.visits = [(path,v)]) (deleted : q.deleteErrors = p.deleteErrors)
    (coherent : q.stage.Coherent native files) : q.Covers native names conf zones target tree files := by
  have remaining : q.remaining = p.remaining := by simp [Pass.remaining,working,same,cursor,conf',tree']
  refine ⟨conf'.trans covers.walks,target'.trans covers.seeks,tree'.trans covers.reads,cursor ▸ covers.cursor,
    by rw [cursor]; exact covers.fresh,fun _ => by rw [cursor]; exact covers.running (notWalking working),
    fun rc ended => ?_,coherent,by rw [remaining,cursor]; exact covers.known,
    by rw [remaining,cursor,deleted]; exact covers.left⟩
  rw [ended] at same
  contradiction

variable {files files₀ : Files} {p : Pass} (describes : tree.Describes conf.root files₀)
  (shrunk : ∀ path content, files path = some content → files₀ path = some content)
include describes shrunk

theorem honestVisit (covers : p.Covers native names conf zones target tree files) {path : Bytes} {v : FileVisit}
    (working : p.stage.visits = [(path,v)]) (clean : p.cursor.scanErrors = 0) {content : Bytes}
    (there : files path = some content) :
    v.read.file ≠ .vanished ∧ v.read.regular = true ∧ v.unlinked.present = true := by
  have member : (path,v) ∈ p.remaining := by simp [Pass.remaining,working]
  have visited := covers.known clean _ member
  refine describes.honest path v ?_ (by rw [shrunk path content there]; rfl)
  unfold Tree.visits at visited ⊢
  split at visited
  · rename_i opened
    rw [if_pos opened]
    exact visitsAll visited
  · simp at visited

theorem readCovers (covers : p.Covers native names conf zones target tree files) {path : Bytes} {v : FileVisit}
    (reading : p.stage = .reading path v) :
    (p.read native path v (files path)).Covers native names conf zones target tree files := by
  have working : p.stage.visits = [(path,v)] := by rw [reading]; rfl
  rcases readCases native path v (files path) p with ⟨entry,text,_,there,formed,_,same⟩ | same | same
  · rw [same]
    refine onCovers covers working rfl rfl rfl rfl rfl rfl fun content found => ?_
    rw [there] at found
    cases Option.some.inj found
    exact formed
  · rw [same]
    -- A scan error is counted, so nothing is claimed of the files that remain.
    refine ⟨covers.walks,covers.seeks,covers.reads,⟨covers.cursor.fits,covers.cursor.nested,covers.cursor.idle⟩,
      fun idle => absurd ((covers.running (notWalking working)).symm.trans idle) (by decide),
      fun moved => absurd rfl moved,nofun,trivial,fun zero => absurd zero (Nat.succ_ne_zero _),
      fun zero => absurd zero (Nat.succ_ne_zero _)⟩
  · refine skipCovers covers working (by rw [same]) (by rw [same]) (by rw [same]) (by rw [same]) (by rw [same])
      (fun _ _ h => h) fun zero undeleted => ?_
    rw [same] at zero undeleted
    refine ⟨undeleted,fun entry chosen => ?_⟩
    obtain ⟨content,there,formed⟩ := chosen.formed
    obtain ⟨present,regular,_⟩ := honestVisit describes shrunk covers working zero there
    have guard : p.target.guarded p.conf path = false := by
      rw [covers.seeks,covers.walks]
      exact chosen.open_
    have counted : entry.count p.target.wanted = p.target.wanted := by
      rw [covers.seeks]
      exact chosen.counted
    have answers : v.read.on (some content) = v.read := by simp [FileAnswers.on]
    unfold Pass.read at same
    rw [there,answers] at same
    simp only [guard,Bool.false_eq_true,if_false,Option.getD_some] at same
    rcases readComplete formed present regular with found | failed
    · rw [found] at same
      simp [counted] at same
    · rw [failed] at same
      have counted := congrArg (fun q => q.cursor.scanErrors) same
      exact absurd counted (Nat.succ_ne_self _)

omit describes shrunk in
theorem judgeCovers {zones' : Nat → Zone} (moved : ∀ ns, ∃ bounded, Moved (zones ns) (zones' ns) bounded)
    (covers : p.Covers native names conf zones target tree files)
    {path : Bytes} {v : FileVisit} {entry : EntryKey} (judging : p.stage = .judging path v entry) :
    (p.judge names zones' path v entry).1.Covers native names conf zones target tree files := by
  have working : p.stage.visits = [(path,v)] := by rw [judging]; rfl
  have coherent := covers.coherent
  rw [judging] at coherent
  cases verdict : p.verdict names zones' entry with
  | true =>
    simp only [Pass.judge,verdict,if_true]
    exact onCovers covers working rfl rfl rfl rfl rfl rfl coherent
  | false =>
    simp only [Pass.judge,verdict,Bool.false_eq_true,if_false]
    refine skipCovers covers working rfl rfl rfl rfl rfl (fun _ _ h => h) fun _ undeleted => ⟨undeleted,?_⟩
    intro other chosen
    obtain ⟨content,there,formed⟩ := chosen.formed
    rw [coherent content there] at formed
    cases Option.some.inj formed
    have judged : p.verdict names zones' entry = true := by
      unfold Pass.verdict
      rw [covers.seeks,chosen.selected,Bool.and_true]
      cases of_ : target.ns with
      | none => rfl
      | some ns =>
        obtain ⟨bounded,grown⟩ := moved ns
        simp [staleStays grown (chosen.stale ns of_)]
    rw [judged] at verdict
    contradiction

theorem unlinkCovers (covers : p.Covers native names conf zones target tree files) {path : Bytes} {v : FileVisit}
    {entry : EntryKey} (unlinking : p.stage = .unlinking path v entry) :
    (p.unlink path v entry files).1.Covers native names conf zones target tree (p.unlink path v entry files).2.1 ∧
    ∀ other content, (p.unlink path v entry files).2.1 other = some content → files other = some content := by
  have working : p.stage.visits = [(path,v)] := by rw [unlinking]; rfl
  rcases unlinkCases path v entry files p with ⟨text,there,_,same⟩ | ⟨_,same⟩ | ⟨kept,same⟩
  · rw [same]
    refine ⟨skipCovers covers working rfl rfl rfl rfl rfl (fun _ _ => removedFile) fun _ undeleted =>
      ⟨undeleted,fun other chosen => ?_⟩,fun _ _ => removedFile⟩
    obtain ⟨content,found,_⟩ := chosen.formed
    simp only [Function.update_self] at found
    contradiction
  · rw [same]
    refine ⟨skipCovers covers working rfl rfl rfl rfl rfl (fun _ _ h => h) fun _ undeleted => ?_,fun _ _ h => h⟩
    exact absurd undeleted (saturateNonzero _)
  · rw [same]
    refine ⟨skipCovers covers working rfl rfl rfl rfl rfl (fun _ _ h => h) fun clean undeleted =>
      ⟨undeleted,fun other chosen => ?_⟩,fun _ _ h => h⟩
    obtain ⟨content,found,_⟩ := chosen.formed
    have there : files path = some content := found
    obtain ⟨_,_,present⟩ := honestVisit describes shrunk covers working clean there
    rcases kept with none | absent
    · rw [none] at there
      contradiction
    · rw [present] at absent
      contradiction

omit shrunk in
theorem beginCovers (earlier : Option Pass) :
    (Pass.begin conf target tree earlier).Covers native names conf zones target tree files₀ := by
  have todo : (Pass.begin conf target tree earlier).remaining =
      tree.visits (isProtectedPath conf) conf.root := rfl
  refine ⟨rfl,rfl,rfl,⟨nofun,.nil,fun _ => rfl⟩,fun _ => rfl,fun moved => absurd rfl moved,nofun,trivial,
    fun _ x member => todo ▸ member,fun _ _ path entry chosen => ?_⟩
  obtain ⟨content,there,_⟩ := chosen.formed
  have unprotected : isProtectedPath conf path = false := by
    have through := chosen.open_
    simp only [Target.guarded,Bool.or_eq_false_iff] at through
    exact through.1.1.1
  obtain ⟨v,member⟩ := describes.listed path (by rw [there]; rfl) chosen.inside
  exact ⟨v,todo ▸ visitsUnprotected member unprotected⟩

end coverage

section runs
variable (native : Native) (names : Nat → Name) (epochs : Nat → Epoch)

structure Passing (conf : WalkConf) (target : Target) (tree : Tree) (start s : Sweep) (p : Pass) : Prop where
  here : s.pass = some p
  world : s.world.Valid names epochs
  moved : ∀ ns, ∃ bounded, Moved (start.world.zones ns) (s.world.zones ns) bounded
  shrunk : ∀ path content, s.files path = some content → start.files path = some content
  covers : p.Covers native names conf start.world.zones target tree s.files

variable {native names epochs} {keyOf : Bytes → Bytes} {conf : WalkConf} {target : Target} {tree : Tree} {start : Sweep}

theorem quietPassing (describes : tree.Describes conf.root start.files) (s : Sweep) (e : SweepEvent)
    (quiet : e.quiet = true) (passing : ∃ p, Passing native names epochs conf target tree start s p) :
    ∃ p, Passing native names epochs conf target tree start (s.step native names keyOf e).1 p := by
  obtain ⟨p,here,world,moved,shrunk,covers⟩ := passing
  cases e with
  | key e =>
    refine ⟨p,here,stepValid s.world e world,fun ns => ?_,shrunk,covers⟩
    obtain ⟨bounded,grown⟩ := moved ns
    exact ⟨bounded,movedTrans grown (stepMoved names s.world e ns _)⟩
  | advance =>
    simp only [Sweep.step,here,Sweep.advance]
    cases stage : p.stage with
    | walking => exact ⟨_,rfl,world,moved,shrunk,walkCovers covers stage⟩
    | reading path v => exact ⟨_,rfl,world,moved,shrunk,readCovers describes shrunk covers stage⟩
    | judging path v entry => exact ⟨_,rfl,world,moved,shrunk,judgeCovers moved covers stage⟩
    | unlinking path v entry =>
      obtain ⟨kept,fewer⟩ := unlinkCovers describes shrunk covers stage
      exact ⟨_,rfl,world,moved,fun other content found => shrunk other content (fewer other content found),kept⟩
    | ended rc => exact ⟨p,here,world,moved,shrunk,covers⟩
  | store path content => contradiction
  | remove path => contradiction
  | start conf target tree => contradiction

theorem startPassing (world : start.world.Valid names epochs) (describes : tree.Describes conf.root start.files) :
    Passing native names epochs conf target tree start
      (start.step native names keyOf (.start conf target tree)).1 (.begin conf target tree start.pass) :=
  ⟨rfl,world,fun ns => ⟨world.bounded ns,movedRefl _⟩,fun _ _ h => h,beginCovers describes start.pass⟩

theorem passedClean {s : Sweep} {p : Pass} (passing : Passing native names epochs conf target tree start s p) {rc : Rc}
    (ended : p.stage = .ended rc) (scanned : p.cursor.scanErrors = 0) (deleted : p.deleteErrors = 0)
    (path : Bytes) (entry : EntryKey) :
    ¬ Chosen native names conf target start.world.zones s.files path entry := by
  intro chosen
  obtain ⟨v,member⟩ := passing.covers.left scanned deleted path entry chosen
  have running := passing.covers.running (by rw [ended]; exact nofun)
  have empty := passing.covers.ended rc ended
  simp [Pass.remaining,ended,Stage.visits,Cursor.pending,running,Cursor.ahead,empty] at member

end runs

/- A pass of a namespace removes exactly stale entries. Whatever else runs, it
unlinks only files of the namespace that are stale at that moment, whose key no
request is given afterwards that asks for it then; and a pass without errors, over
files that only the pass removes, leaves none that was stale when it started. -/
theorem sweepRemovesStale (native : Native) (names : Nat → Name) (keyOf : Bytes → Bytes) (epochs : Nat → Epoch)
    (files : Files) (placed : Placed native keyOf files) (front : List SweepEvent) :
    let machine := sweepMachine native names keyOf
    let s := machine.after (sweepInit epochs files) front
    (∀ path, (machine.step s .advance).1.files path ≠ s.files path →
      ∃ ns content, .unlinked ns path content ∈ (machine.step s .advance).2) ∧
    (∀ e ns path content, .unlinked (some ns) path content ∈ (machine.step s e).2 →
      ∃ entry d, s.files path = some content ∧ entryOf native path content = some entry ∧
        generationDecode (names ns) entry.key = some d ∧
        (d.epoch ≠ (s.world.zones ns).shared.epoch.bytes ∨
          d.generation < generationLookup (s.world.zones ns).shared d.logical) ∧
        entry.key.take 3 = keyMagic ∧ (∀ name, name ≠ names ns → generationDecode name entry.key = none) ∧
        ∀ back r snap, .key (.minted r snap) ∈ machine.outputs (machine.step s e).1 back →
          (names snap.ns = names ns → snap.ns = ns) →
          (∀ old, .key (.minted r old) ∈ machine.outputs (sweepInit epochs files) front →
            ¬ (old.ns = snap.ns ∧ old.logical = snap.logical)) → snap.encoded ≠ entry.key) ∧
    ∀ conf ns tree events p rc, tree.Describes conf.root s.files →
      (∀ e ∈ events, SweepEvent.quiet e = true) →
      let last := machine.after (machine.step s (.start conf ⟨some ns,[],false⟩ tree)).1 events
      last.pass = some p → p.stage = .ended rc → p.cursor.scanErrors = 0 → p.deleteErrors = 0 →
      ∀ path entry, ¬ StaleFile native (names ns) conf (s.world.zones ns) last.files path entry := by
  intro machine s
  have sound : s.Sound native names keyOf epochs := runSound (initSound placed) front
  refine ⟨fun path changed => @advanceFrame native names keyOf s path changed,fun e ns path content out => ?_,?_⟩
  · obtain ⟨entry,formed,stale⟩ := unlinkedStale sound out
    obtain ⟨d,decoded,old⟩ := staleKey.mp stale
    refine ⟨entry,d,(unlinkedBy out).2.1,formed,decoded,old,(decodeNamed decoded).1,fun name foreign => ?_,
      fun back r snap minted distinct first => ?_⟩
    · cases other : generationDecode name entry.key with
      | none => rfl
      | some d' => exact absurd (decodeForeign other decoded) foreign
    · refine unlinkedNeverMinted placed front back out formed ?_ distinct first
      rw [Machine.afterAppend]
      exact minted
  · intro conf ns tree events p rc describes quiet last here ended scanned deleted path entry
    obtain ⟨q,passing⟩ := machine.invariantWhile (quietPassing describes)
      ⟨_,@startPassing native names epochs keyOf conf ⟨some ns,[],false⟩ tree s sound.world describes⟩ quiet
    cases Option.some.inj (passing.here.symm.trans here)
    exact fun stale => passedClean passing ended scanned deleted path entry (staleChosen stale)

section site

def siteKey : Bytes := generationEncode siteName siteEpoch 1 [47,97]

def siteNative : Native := native64 (fun _ => 35412842)
  fun _ => [235,237,190,16,169,250,239,115,0,103,228,86,79,124,23,242]

def sitePath : Bytes := [47,99,47] ++ hexDump (siteNative.md5 siteKey)

def siteContent : Bytes :=
  5 :: (List.replicate 47 0 ++ [106,91,28,2,0,0,125,1,125,1] ++ List.replicate 278 0) ++
    keyMarker ++ siteKey ++ [lineFeed]

def siteTree : Tree where
  room := some fun _ => 0
  dir := ⟨true,.ok,true⟩
  listing := .entry (sitePath.drop 3) ⟨some fun _ => 0,.ok⟩ (.file ⟨.ok,wellRead,.ok⟩) .done .done

def siteFront : List SweepEvent :=
  [.key (.enter ⟨0,0⟩ true),.key (.leave ⟨0,0⟩ 0 (some [47,97]) (true,true)),.store sitePath siteContent,
    .key (.invalidate 0 ⟨[47,97],false,none,true,[some 8,some 9]⟩)]

def siteMachine : Machine Sweep SweepEvent SweepOutput := sweepMachine siteNative (fun _ => siteName) fun _ => siteKey

def siteInit : Sweep := sweepInit (fun _ => siteEpoch) fun _ => none

def siteStart : SweepEvent := .start ⟨posix,[47,99],[]⟩ ⟨some 0,[],false⟩ siteTree

theorem siteStored : (siteMachine.after siteInit siteFront).files =
    Function.update (fun _ => none) sitePath (some siteContent) := by
  have formed : (entryOf siteNative sitePath siteContent).map EntryKey.key = some siteKey := by decide +kernel
  simp only [siteFront,siteMachine,sweepMachine,Machine.afterCons,Machine.afterNil,Sweep.step,formed,if_true]
  rfl

theorem siteListed (content : Bytes) :
    siteTree.Describes [47,99] (Function.update (fun _ => none) sitePath (some content)) := by
  have visits : siteTree.visits (fun _ => false) [47,99] = [(sitePath,⟨.ok,wellRead,.ok⟩)] := by decide +kernel
  refine ⟨fun path there _ => ?_,fun path v member _ => ?_⟩
  · have here : path = sitePath := by
      by_contra apart
      rw [Function.update_of_ne apart] at there
      contradiction
    exact ⟨_,by rw [visits,here]; exact List.mem_singleton.mpr rfl⟩
  · rw [visits] at member
    cases List.mem_singleton.mp member
    exact ⟨nofun,rfl,rfl⟩

theorem siteDescribes : siteTree.Describes [47,99] (siteMachine.after siteInit siteFront).files := by
  rw [siteStored]
  exact siteListed siteContent

theorem sweepRemovesPurged :
    (∃ entry, entryOf siteNative sitePath siteContent = some entry ∧ entry.key.take 3 = keyMagic) ∧
    ∀ entry, ¬ StaleFile siteNative siteName ⟨posix,[47,99],[]⟩
      ((siteMachine.after siteInit siteFront).world.zones 0)
      (siteMachine.after (siteMachine.step (siteMachine.after siteInit siteFront) siteStart).1
        (List.replicate 7 .advance)).files sitePath entry := by
  have removes := sweepRemovesStale siteNative (fun _ => siteName) (fun _ => siteKey) (fun _ => siteEpoch)
    (fun _ => none) nofun
  constructor
  · obtain ⟨entry,_,_,formed,_,_,magic,_⟩ := (removes (siteFront ++ siteStart :: List.replicate 4 .advance)).2.1
      .advance 0 sitePath siteContent (by decide +kernel)
    exact ⟨entry,formed,magic⟩
  · have ended : (siteMachine.after (siteMachine.step (siteMachine.after siteInit siteFront) siteStart).1
        (List.replicate 7 .advance)).pass.map (fun p => (p.stage,p.cursor.scanErrors,p.deleteErrors)) =
          some (.ended .ok,0,0) := by decide +kernel
    obtain ⟨p,here,same⟩ := Option.map_eq_some_iff.mp ended
    simp only [Prod.mk.injEq] at same
    have quiet : ∀ e ∈ List.replicate 7 SweepEvent.advance, e.quiet = true := by
      intro e member
      rw [List.eq_of_mem_replicate member]
      rfl
    have clean := (removes siteFront).2.2 ⟨posix,[47,99],[]⟩ 0 siteTree _ p .ok siteDescribes quiet here same.1
      same.2.1 same.2.2 sitePath
    simp only [siteMachine,siteInit,siteStart]
    exact clean

end site

end CachePurge
