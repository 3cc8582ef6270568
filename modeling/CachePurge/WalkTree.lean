import CachePurge.WalkSlices

/-! What a walk has to visit, said of the tree alone: the regular files below its
root that no skipped directory is above, each once. -/
namespace CachePurge
open General

/- There is a regular file at the path: its entries are there, and so are the
directories on the way to it. -/
inductive Listing.Holds : Listing → Bytes → Bytes → FileVisit → Prop where
  | file {name answers v sub rest dir} (named : dotName name = false) (there : answers.info.present = true)
      (regular : v.stat.present = true) : Holds (.entry name answers (.file v) sub rest) dir (dir ++ slash :: name) v
  | inside {name answers d sub rest dir path v} (named : dotName name = false)
      (there : answers.info.present = true) (opens : d.opened.present = true)
      (holds : Holds sub (dir ++ slash :: name) path v) : Holds (.entry name answers (.directory d) sub rest) dir path v
  | later {name answers kind sub rest dir path v} (holds : Holds rest dir path v) :
      Holds (.entry name answers kind sub rest) dir path v
  | past {rest dir path v} (holds : Holds rest dir path v) : Holds (.broken rest) dir path v

def Listing.names : Listing → List Bytes
  | .done => []
  | .broken rest => rest.names
  | .entry name _ _ _ rest => name :: rest.names

/- The names in one directory differ, and none has a separator in it. -/
def Listing.Proper : Listing → Prop
  | .done => True
  | .broken rest => rest.Proper
  | .entry name _ _ sub rest => slash ∉ name ∧ name ∉ rest.names ∧ sub.Proper ∧ rest.Proper

theorem visitsHolds {listing : Listing} {dir path : Bytes} {v : FileVisit} :
    (path,v) ∈ listing.visits (fun _ => false) dir ↔ listing.Holds dir path v := by
  rw [visitsReach]
  constructor
  · intro reaches
    induction reaches with
    | file named there regular => exact .file named there regular
    | inside named there opens _ _ ih => exact .inside named there opens ih
    | later _ ih => exact .later ih
    | past _ ih => exact .past ih
  · intro holds
    induction holds with
    | file named there regular => exact .file named there regular
    | inside named there opens _ ih => exact .inside named there opens rfl ih
    | later _ ih => exact .later ih
    | past _ ih => exact .past ih

section paths
variable {skip : Bytes → Bool} {listing : Listing} {dir path : Bytes} {v : FileVisit}

theorem visitsNamed (member : (path,v) ∈ listing.visits skip dir) :
    ∃ name ∈ listing.names, path = dir ++ slash :: name ∨ Below (dir ++ slash :: name) path := by
  have reaches := visitsReach.mp member
  clear member
  induction reaches with
  | @file name => exact ⟨name,List.mem_cons_self,.inl rfl⟩
  | @inside name _ _ _ _ _ _ _ _ _ _ _ reaches => exact ⟨name,List.mem_cons_self,.inr (reachesBelow reaches)⟩
  | later _ ih =>
    obtain ⟨other,among,at_⟩ := ih
    exact ⟨other,List.mem_cons_of_mem _ among,at_⟩
  | past _ ih => exact ih

def component (dir path : Bytes) : Bytes := (path.drop (dir.length + 1)).takeWhile (· != slash)

theorem componentNamed {name : Bytes} (plain : slash ∉ name)
    (at_ : path = dir ++ slash :: name ∨ Below (dir ++ slash :: name) path) : component dir path = name := by
  have through : ∀ c ∈ name, (c != slash) = true := fun c member => by
    simp only [bne_iff_ne]
    rintro rfl
    exact plain member
  unfold component
  rcases at_ with rfl | ⟨rest,rfl⟩
  · rw [show dir ++ slash :: name = (dir ++ [slash]) ++ name by simp,List.drop_left' (by simp)]
    simpa using @List.takeWhile_append_of_pos _ _ _ [] through
  · rw [show dir ++ slash :: name ++ slash :: rest = (dir ++ [slash]) ++ (name ++ slash :: rest) by simp,
      List.drop_left' (by simp),List.takeWhile_append_of_pos through]
    simp

theorem properNames (proper : listing.Proper) {name : Bytes} (member : name ∈ listing.names) : slash ∉ name := by
  induction listing with
  | done => simp [Listing.names] at member
  | broken rest ih => exact ih proper member
  | entry other answers kind sub rest ihSub ih =>
    rcases List.mem_cons.mp member with rfl | later
    · exact proper.1
    · exact ih proper.2.2.2 later

theorem visitsNodup (proper : listing.Proper) : ((listing.visits skip dir).map Prod.fst).Nodup := by
  induction listing generalizing dir with
  | done => exact .nil
  | broken rest ih => exact ih proper
  | entry name answers kind sub rest ihSub ih =>
    obtain ⟨plain,fresh,properSub,properRest⟩ := proper
    rw [Cursor.entryVisits,List.map_append]
    refine List.nodup_append.mpr ⟨?_,ih properRest,?_⟩
    · split
      · exact .nil
      · cases kind with
        | other => exact .nil
        | file w =>
          simp only [Kind.visits]
          split
          · exact List.pairwise_singleton ..
          · exact .nil
        | directory d =>
          simp only [Kind.visits]
          split
          · exact ihSub properSub
          · exact .nil
    · rintro _ first _ second rfl
      obtain ⟨⟨p,v⟩,here,rfl⟩ := List.mem_map.mp first
      obtain ⟨⟨p',v'⟩,after,same⟩ := List.mem_map.mp second
      have paths : p' = p := same
      subst paths
      obtain ⟨other,among,at_⟩ := visitsNamed after
      have mine : component dir p' = name := by
        have single : (p',v) ∈ (Listing.entry name answers kind sub .done).visits skip dir := by
          rw [Cursor.entryVisits]
          exact List.mem_append_left _ here
        obtain ⟨own,only,at_'⟩ := visitsNamed single
        rw [List.mem_singleton.mp only] at at_'
        exact componentNamed plain at_'
      rw [componentNamed (properNames properRest among) at_] at mine
      exact fresh (mine ▸ among)

theorem firstSlash (r tail : Bytes) : (r ++ slash :: tail).takeWhile (· != slash) = r.takeWhile (· != slash) := by
  induction r with
  | nil => simp
  | cons c r ih =>
    simp only [List.cons_append,List.takeWhile_cons]
    split
    · rw [ih]
    · rfl

theorem directoryAbove {name d : Bytes} (plain : slash ∉ name)
    (at_ : path = dir ++ slash :: name ∨ Below (dir ++ slash :: name) path) (below : Below dir d) (above : Below d path) :
    d = dir ++ slash :: name ∨ Below (dir ++ slash :: name) d := by
  obtain ⟨r,rfl⟩ := below
  obtain ⟨tail,rfl⟩ := above
  have first := componentNamed plain at_
  rw [component,show dir ++ slash :: r ++ slash :: tail = (dir ++ [slash]) ++ (r ++ slash :: tail) by simp,
    List.drop_left' (by simp),firstSlash] at first
  have split := List.takeWhile_append_dropWhile (p := (· != slash)) (l := r)
  rw [first] at split
  cases rest : r.dropWhile (· != slash) with
  | nil =>
    rw [rest,List.append_nil] at split
    exact .inl (by rw [split])
  | cons c rest' =>
    have stops : (c != slash) = false := by
      have head := List.head?_dropWhile_not (· != slash) r
      rw [rest] at head
      simpa using head
    simp only [bne_eq_false_iff_eq] at stops
    subst stops
    rw [rest] at split
    exact .inr ⟨rest',by rw [← split]; simp⟩

theorem visitsUnskipped (proper : listing.Proper) : (path,v) ∈ listing.visits skip dir ↔
    (path,v) ∈ listing.visits (fun _ => false) dir ∧ ∀ d, Below dir d → Below d path → skip d = false := by
  constructor
  · intro member
    refine ⟨visitsAll member,fun d below above => ?_⟩
    have reaches := visitsReach.mp member
    clear member
    induction reaches with
    | file =>
      obtain ⟨plain,_⟩ := proper
      -- No directory lies between a name without separators and its own directory.
      rcases directoryAbove plain (.inl rfl) below above with same | longer
      · obtain ⟨tail,bad⟩ := above
        rw [same] at bad
        simp at bad
      · obtain ⟨tail,bad⟩ := above
        obtain ⟨tail',rfl⟩ := longer
        simp at bad
    | inside _ _ _ free reaches ih =>
      obtain ⟨plain,_,properSub,_⟩ := proper
      rcases directoryAbove plain (.inr (reachesBelow reaches)) below above with rfl | longer
      · exact free
      · exact ih properSub longer above
    | later _ ih => exact ih proper.2.2.2 below above
    | past _ ih => exact ih proper below above
  · rintro ⟨member,clear⟩
    rcases visitedOrSkipped skip member with found | ⟨d,below,skipped,above⟩
    · exact found
    · rw [clear d below above] at skipped
      contradiction

end paths
section walk
variable {α : Type} {conf : WalkConf} {tree : Tree} {visit : Visitor α}

def Cursor.opens (conf : WalkConf) (tree : Tree) (c : Cursor) : Prop :=
  (if c.started then c else (walkStart conf tree c).1).frames ≠ []

theorem loopReads {c : Cursor} (running : c.started = true) {limit : Nat} (positive : 1 ≤ limit) (start : UInt64)
    (clock : Nat → UInt64) (a : α) : (walkStep conf tree visit limit start clock c a).reads ≤ limit ∧
      (c.frames ≠ [] → 1 ≤ (walkStep conf tree visit limit start clock c a).reads) := by
  have limited (n : Nat) (full : limit ≤ n) : walkStop limit start clock n = true := by
    have nonzero : limit ≠ 0 := by omega
    have above : limit < n + 1 := by omega
    simp [walkStop,nonzero,above]
  obtain ⟨most,least⟩ := Loop.sliceTurns (l := walkLoop conf visit) (walkStop limit start clock) limited positive
    (c.work + 1) 0 (c,a) (Nat.zero_le _)
  rw [stepRunning running]
  have reads : (WalkCall.ofSlice ((walkLoop conf visit).slice (walkStop limit start clock) (c.work + 1) 0 (c,a))).reads =
      ((walkLoop conf visit).slice (walkStop limit start clock) (c.work + 1) 0 (c,a)).turns := by
    unfold WalkCall.ofSlice
    split <;> rfl
  rw [reads]
  refine ⟨most,fun open_ => least ?_ rfl (Nat.succ_pos _)⟩
  cases top : c.frames with
  | nil => exact absurd top open_
  | cons frame parents => simp [walkLoop,top]

theorem stepReads {c : Cursor} (valid : c.Valid) {limit : Nat} (positive : 1 ≤ limit) (start : UInt64)
    (clock : Nat → UInt64) (a : α) : (walkStep conf tree visit limit start clock c a).reads ≤ limit ∧
      (c.opens conf tree → 1 ≤ (walkStep conf tree visit limit start clock c a).reads) := by
  cases running : c.started with
  | true =>
    have bounds := @loopReads α conf tree visit c running limit positive start clock a
    exact ⟨bounds.1,fun open_ => bounds.2 (by simpa [Cursor.opens,running] using open_)⟩
  | false =>
    have turned := startTurned conf tree valid running
    rcases startCases conf tree (valid.idle running) with ⟨going,_,_,_⟩ | ⟨rc,_,_,ended⟩
    · have opened := @stepOpened α conf tree visit _ _ running (Prod.ext rfl going) turned.started limit start clock a
      have bounds := @loopReads α conf tree visit _ turned.started limit positive start clock a
      rw [opened]
      exact ⟨bounds.1,fun open_ => bounds.2 (by simpa [Cursor.opens,running] using open_)⟩
    · have none : (walkStep conf tree visit limit start clock c a).reads = 0 := by
        simp [walkStep,running,ended]
      refine ⟨by rw [none]; exact Nat.zero_le _,fun open_ => ?_⟩
      rw [Cursor.opens,running] at open_
      exact absurd (turned.stopped rc ended) open_

theorem stepValidCursor {c : Cursor} (valid : c.Valid) {limit : Nat} {start : UInt64} {clock : Nat → UInt64} {a : α} :
    (walkStep conf tree visit limit start clock c a).cursor.Valid := by
  have loops {c : Cursor} (valid : c.Valid) (running : c.started = true) :
      (walkStep conf tree visit limit start clock c a).cursor.Valid := by
    obtain ⟨n,_,trace⟩ := Loop.sliceTrace (l := walkLoop conf visit) (walkStop limit start clock) (c.work + 1) 0 (c,a)
    have outcome := walkedTrace valid running trace
    rw [stepRunning running]
    generalize (walkLoop conf visit).slice (walkStop limit start clock) (c.work + 1) 0 (c,a) = call at outcome
    obtain ⟨result,out,turns⟩ := call
    cases result with
    | inl s' => exact (outcome.1 s' rfl).valid
    | inr r =>
      have none := (outcome.2 r rfl).closed
      exact idleValid none
  cases running : c.started with
  | true => exact loops valid running
  | false =>
    have turned := startTurned conf tree valid running
    rcases startCases conf tree (valid.idle running) with ⟨going,_,_,_⟩ | ⟨rc,_,_,ended⟩
    · rw [stepOpened running (Prod.ext rfl going) turned.started]
      exact loops turned.valid turned.started
    · simpa [walkStep,running,ended] using turned.valid

/- A walk in slices is the walk in one call, whatever the limit and the clock; each
slice reads at least one entry and at most its limit; and a walk without errors
visits the regular files that no protected directory is above, in the order of the
tree and each once. -/
theorem walkExhaustive (conf : WalkConf) (tree : Tree) (visit : Visitor α) (c : Cursor) (a : α)
    (idle : c.started = false) (closed : c.frames = []) :
    let whole := walkWhole conf tree visit c a
    c.Valid ∧ whole.rc ≠ .again ∧
    (∀ limit starts clocks calls, 1 ≤ limit → tree.listing.size < calls →
      walkCalls conf tree visit limit starts clocks calls 0 c a = whole) ∧
    (∀ limit start clock c a, 1 ≤ limit → Cursor.Valid c →
      (walkStep conf tree visit limit start clock c a).reads ≤ limit ∧
      (c.opens conf tree → 1 ≤ (walkStep conf tree visit limit start clock c a).reads) ∧
      (walkStep conf tree visit limit start clock c a).cursor.Valid) ∧
    (whole.cursor.scanErrors = 0 →
      whole.visited = tree.visits (isProtectedPath conf) conf.root ∧
      whole.state = (visitAll visit whole.visited a).2 ∧
      (tree.listing.Proper → (whole.visited.map Prod.fst).Nodup ∧
        ∀ path v, (path,v) ∈ whole.visited ↔ tree.dir.opened.present = true ∧
          tree.listing.Holds conf.root path v ∧
          ∀ d, Below conf.root d → Below d path → isProtectedPath conf d = false)) := by
  intro whole
  have walked := @wholeWalked α conf tree visit _ a idle closed
  refine ⟨idleValid closed,walked.final,fun limit starts clocks calls _ enough => callsWhole idle closed limit starts clocks enough,
    fun limit start clock c a positive valid => ?_,fun zero => ?_⟩
  · obtain ⟨most,least⟩ := @stepReads α conf tree visit c valid limit positive start clock a
    exact ⟨most,least,stepValidCursor valid⟩
  · obtain ⟨all,_⟩ := walked.clean zero
    refine ⟨all.symm,walked.state,fun proper => ?_⟩
    rw [show whole.visited = tree.visits (isProtectedPath conf) conf.root from all.symm]
    unfold Tree.visits
    constructor
    · split
      · exact visitsNodup proper
      · exact .nil
    · intro path v
      split
      · rename_i opens
        rw [visitsUnskipped proper,visitsHolds]
        simp [opens]
      · rename_i shut
        simp [shut]

end walk
section nested

def plainEntry : EntryAnswers := ⟨some fun _ => 0,.ok⟩

def plainFile : Kind := .file ⟨.ok,wellRead,.ok⟩

def nestedTree : Tree where
  room := some fun _ => 0
  dir := ⟨true,.ok,true⟩
  listing := .entry [46] plainEntry (.directory ⟨true,.ok,true⟩) .done
    (.entry [100] plainEntry (.directory ⟨true,.ok,true⟩) (.entry [103] plainEntry plainFile .done .done)
      (.entry [102] plainEntry plainFile .done .done))

def idleCursor : Cursor := ⟨[],0,[],false,0⟩

def nestedConf : WalkConf := ⟨posix,[47,99],[]⟩

def counting : Visitor Nat := fun _ _ n => (false,n + 1)

theorem walkExhaustiveNested :
    (walkCalls nestedConf nestedTree counting 1 (fun _ => 0) (fun _ _ => 0) 10 0 idleCursor 0).state = 2 ∧
    ([47,99,47,100,47,103],⟨.ok,wellRead,.ok⟩) ∈ (walkWhole nestedConf nestedTree counting idleCursor 0).visited := by
  have whole := walkExhaustive nestedConf nestedTree counting idleCursor 0 rfl rfl
  have sliced := whole.2.2.1 1 (fun _ => 0) (fun _ _ => 0) 10 le_rfl (by decide)
  have visits := whole.2.2.2.2 (by decide +kernel)
  refine ⟨?_,?_⟩
  · rw [sliced]
    decide +kernel
  · rw [visits.1]
    decide +kernel

end nested
end CachePurge
