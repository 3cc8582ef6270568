import CachePurge.Walk
import Mathlib.Tactic.Common

/-! What a walk has still to visit, as a list in the order of the visits. A turn
that counts no error takes its visit from the head of that list and leaves the
rest, so a walk that ends without errors has visited all of it. -/
namespace CachePurge

def Listing.visits (skip : Bytes → Bool) : Listing → Bytes → List (Bytes × FileVisit)
  | .done, _ => []
  | .broken rest, dir => rest.visits skip dir
  | .entry name answers kind sub rest, dir =>
    (if dotName name || !answers.info.present then []
      else match kind with
        | .file v => if v.stat.present then [(dir ++ slash :: name,v)] else []
        | .directory d =>
          if d.opened.present && !skip (dir ++ slash :: name) then sub.visits skip (dir ++ slash :: name)
          else []
        | .other => []) ++ rest.visits skip dir

def Kind.visits (skip : Bytes → Bool) (sub : Listing) (path : Bytes) : Kind → List (Bytes × FileVisit)
  | .file v => if v.stat.present then [(path,v)] else []
  | .directory d => if d.opened.present && !skip path then sub.visits skip path else []
  | .other => []

def Tree.visits (skip : Bytes → Bool) (tree : Tree) (root : Bytes) : List (Bytes × FileVisit) :=
  if tree.dir.opened.present then tree.listing.visits skip root else []

def Frame.visits (skip : Bytes → Bool) (data : Bytes) (frame : Frame) : List (Bytes × FileVisit) :=
  frame.rest.visits skip (data.take frame.len)

section survey
variable {β : Type} (own : Bytes → Kind → List β) (skip : Bytes → Bool)

def Listing.survey : Listing → Bytes → List β
  | .done, _ => []
  | .broken rest, dir => rest.survey dir
  | .entry name answers kind sub rest, dir =>
    (if dotName name || !answers.info.present then []
      else own (dir ++ slash :: name) kind ++ match kind with
        | .directory d =>
          if d.opened.present && !skip (dir ++ slash :: name) then sub.survey (dir ++ slash :: name) else []
        | _ => []) ++ rest.survey dir

def Kind.below (sub : Listing) (path : Bytes) : Kind → List β
  | .directory d => if d.opened.present && !skip path then sub.survey own skip path else []
  | _ => []

def Tree.survey (tree : Tree) (root : Bytes) : List β :=
  if tree.dir.opened.present then tree.listing.survey own skip root else []

end survey

def fileVisits (path : Bytes) : Kind → List (Bytes × FileVisit)
  | .file v => if v.stat.present then [(path,v)] else []
  | _ => []

def entryPath (path : Bytes) (_ : Kind) : List Bytes := [path]

def Tree.entries (skip : Bytes → Bool) (tree : Tree) (root : Bytes) : List Bytes := tree.survey entryPath skip root

namespace Cursor

def ahead (skip : Bytes → Bool) (c : Cursor) : List (Bytes × FileVisit) :=
  c.frames.flatMap (Frame.visits skip c.data)

/- The prefixes of the open directories lie in the buffer, one inside the next. -/
structure Valid (c : Cursor) : Prop where
  fits : ∀ frame ∈ c.frames, frame.len < c.data.length
  nested : c.frames.Pairwise fun frame parent => parent.len ≤ frame.len
  idle : c.started = false → c.frames = []

def pending (conf : WalkConf) (tree : Tree) (c : Cursor) : List (Bytes × FileVisit) :=
  if c.started then c.ahead (isProtectedPath conf) else tree.visits (isProtectedPath conf) conf.root

section survey
variable {β : Type} (own : Bytes → Kind → List β)

def surveyed (skip : Bytes → Bool) (c : Cursor) : List β :=
  c.frames.flatMap fun frame => frame.rest.survey own skip (c.data.take frame.len)

def current (c : Cursor) : List β :=
  match c.frames with
  | [] => []
  | frame :: _ => match frame.rest with
    | .entry name answers kind _ _ =>
      if dotName name || !answers.info.present then [] else own (c.data.take frame.len ++ slash :: name) kind
    | _ => []

def examines (c : Cursor) : List β := if c.started then c.current own else []

def outstanding (conf : WalkConf) (tree : Tree) (c : Cursor) : List β :=
  if c.started then c.surveyed own (isProtectedPath conf) else tree.survey own (isProtectedPath conf) conf.root

end survey

end Cursor

def Turned.visits : Turned → List (Bytes × FileVisit)
  | .visit path v => [(path,v)]
  | _ => []

section buffer

theorem overwriteTake {data bytes : Bytes} {offset n : Nat} (below : n ≤ offset)
    (within : offset ≤ data.length) : (overwrite data offset bytes).take n = data.take n := by
  rw [overwrite,List.append_assoc,List.take_append_of_le_length (by simp; omega),List.take_take,
    Nat.min_eq_left below]

theorem overwriteLength {data bytes : Bytes} {offset : Nat} (room : offset + bytes.length ≤ data.length) :
    (overwrite data offset bytes).length = data.length := by
  simp only [overwrite,List.length_append,List.length_take,List.length_drop]
  omega

theorem overwritten {data bytes : Bytes} {offset : Nat} (within : offset ≤ data.length) :
    (overwrite data offset bytes).take (offset + bytes.length) = data.take offset ++ bytes :=
  List.take_left' (by simp; omega)

theorem capacityAbove (size : Nat) : size < capacity size := by
  unfold capacity
  split <;> omega

theorem regrown {room : Option (Nat → UInt8)} {base size : Nat} {data data' : Bytes}
    (grown : regrow room base size data = some data') (within : base ≤ data.length) :
    size < data'.length ∧ ∀ n, n ≤ base → data'.take n = data.take n := by
  unfold regrow at grown
  split at grown
  · obtain ⟨junk,_,rfl⟩ := Option.map_eq_some_iff.mp grown
    have enough := capacityAbove size
    have kept : (data.take base).length = base := by simp [within]
    refine ⟨by rw [overwriteLength] <;> simp <;> omega,fun n low => ?_⟩
    have start : ((List.range (capacity size)).map junk).take 0 = [] := List.take_zero ..
    simp only [overwrite,start,List.nil_append]
    rw [List.take_append_of_le_length (by omega),List.take_take,Nat.min_eq_left low]
  · cases Option.some.inj grown
    exact ⟨by omega,fun _ _ => rfl⟩

end buffer

namespace Cursor

/- A name in the buffer: behind the prefix of the directory on top, with every
open prefix as it was. -/
structure NameWritten (name : Bytes) (c c' : Cursor) : Prop where
  frames : c'.frames = c.frames
  started : c'.started = c.started
  scanErrors : c'.scanErrors = c.scanErrors
  valid : c'.Valid
  fits : c'.len < c'.data.length
  above : c.base ≤ c'.len
  prefixes : ∀ n, n ≤ c.base → c'.data.take n = c.data.take n
  path : c'.path = c.data.take c.base ++ (if c.frames.isEmpty then [] else [slash]) ++ name

theorem baseWithin {c : Cursor} (valid : c.Valid) : c.base ≤ c.data.length := by
  unfold Cursor.base
  cases same : c.frames with
  | nil => simp
  | cons frame parents => exact (valid.fits frame (by simp [same])).le

theorem frameBelow {c : Cursor} (valid : c.Valid) {frame : Frame} (member : frame ∈ c.frames) :
    frame.len ≤ c.base := by
  unfold Cursor.base
  have nested := valid.nested
  cases same : c.frames with
  | nil => simp [same] at member
  | cons top parents =>
    rw [same] at member nested
    rcases List.mem_cons.mp member with rfl | older
    · exact le_rfl
    · exact List.rel_of_pairwise_cons nested older

theorem restValid {c : Cursor} (valid : c.Valid) (running : c.started = true) {frame : Frame} {parents : List Frame}
    (top : c.frames = frame :: parents) (rest : Listing) :
    Cursor.Valid {c with frames := {frame with rest := rest} :: parents} := by
  have fits := valid.fits
  have nested := valid.nested
  rw [top] at fits nested
  refine ⟨fun other member => ?_,?_,fun idle => absurd (running.symm.trans idle) (by decide)⟩
  · rcases List.mem_cons.mp member with rfl | older
    · exact fits frame List.mem_cons_self
    · exact fits other (List.mem_cons_of_mem _ older)
  · exact List.pairwise_cons.mpr (List.pairwise_cons.mp nested)

theorem nameBytes {room : Option (Nat → UInt8)} {name : Bytes} {c c' : Cursor} (valid : c.Valid)
    (written : walkName room name c = some c') : ∃ data separator, separator = (if c.frames.isEmpty then [] else [slash]) ∧
      c.base + separator.length + name.length < data.length ∧ (∀ n, n ≤ c.base → data.take n = c.data.take n) ∧
      c' = {c with
        data := overwrite data c.base (separator ++ name ++ [0])
        len := c.base + separator.length + name.length} := by
  unfold walkName at written
  split at written <;> try contradiction
  obtain ⟨data,grown,rfl⟩ := Option.map_eq_some_iff.mp written
  obtain ⟨enough,kept⟩ := regrown grown (baseWithin valid)
  exact ⟨data,_,rfl,enough,kept,rfl⟩

theorem nameWritten {room : Option (Nat → UInt8)} {name : Bytes} {c c' : Cursor} (valid : c.Valid)
    (written : walkName room name c = some c') : NameWritten name c c' := by
  obtain ⟨data,separator,separated,enough,kept,rfl⟩ := nameBytes valid written
  have within := baseWithin valid
  have length : (overwrite data c.base (separator ++ name ++ [0])).length = data.length :=
    overwriteLength (by simp; omega)
  have prefixes (n : Nat) (low : n ≤ c.base) :
      (overwrite data c.base (separator ++ name ++ [0])).take n = c.data.take n := by
    rw [overwriteTake low (by omega),kept n low]
  refine ⟨rfl,rfl,rfl,⟨fun frame member => ?_,valid.nested,valid.idle⟩,
    by simp only; omega,by simp only; omega,prefixes,?_⟩
  · have below := frameBelow valid member
    simp only
    omega
  · have text := @overwritten data (separator ++ name ++ [0]) c.base (by omega)
    have cut := congrArg (List.take (c.base + separator.length + name.length)) text
    rw [List.take_take,Nat.min_eq_left (by simp; omega),kept c.base le_rfl] at cut
    simp only [Cursor.path]
    have joined : c.data.take c.base ++ (separator ++ name ++ [0]) =
        (c.data.take c.base ++ separator ++ name) ++ [0] := by simp
    rw [cut,joined,← separated]
    exact List.take_left' (by simp; omega)

theorem entrySurvey {β : Type} (own : Bytes → Kind → List β) (skip : Bytes → Bool) {name : Bytes}
    {answers : EntryAnswers} {kind : Kind} {sub rest : Listing} {dir : Bytes} :
    (Listing.entry name answers kind sub rest).survey own skip dir =
      (if dotName name || !answers.info.present then []
        else own (dir ++ slash :: name) kind ++ kind.below own skip sub (dir ++ slash :: name)) ++
        rest.survey own skip dir := by
  cases kind <;> rfl

theorem entryVisits {skip : Bytes → Bool} {name : Bytes} {answers : EntryAnswers} {kind : Kind} {sub rest : Listing}
    {dir : Bytes} : (Listing.entry name answers kind sub rest).visits skip dir =
      (if dotName name || !answers.info.present then [] else kind.visits skip sub (dir ++ slash :: name)) ++
        rest.visits skip dir := by
  cases kind <;> rfl

theorem visitsSurvey (skip : Bytes → Bool) (listing : Listing) (dir : Bytes) :
    listing.visits skip dir = listing.survey fileVisits skip dir := by
  induction listing generalizing dir with
  | done => rfl
  | broken rest ih => exact ih dir
  | entry name answers kind sub rest ihSub ih =>
    rw [entryVisits,entrySurvey,ih]
    cases kind with
    | directory d => rw [Kind.visits,Kind.below,ihSub]; rfl
    | _ => simp [Kind.visits,Kind.below,fileVisits]

theorem aheadSurvey (skip : Bytes → Bool) (c : Cursor) : c.ahead skip = c.surveyed fileVisits skip :=
  List.flatMap_congr fun frame _ => visitsSurvey skip frame.rest _

theorem pendingSurvey (conf : WalkConf) (tree : Tree) (c : Cursor) :
    c.pending conf tree = c.outstanding fileVisits conf tree := by
  unfold pending outstanding Tree.visits Tree.survey
  rw [aheadSurvey,visitsSurvey]

section kept
variable {β : Type} (own : Bytes → Kind → List β) (skip : Bytes → Bool)

theorem surveyKept {frames : List Frame} {data data' : Bytes}
    (kept : ∀ frame ∈ frames, data'.take frame.len = data.take frame.len) :
    (frames.flatMap fun frame => frame.rest.survey own skip (data'.take frame.len)) =
      frames.flatMap fun frame => frame.rest.survey own skip (data.take frame.len) :=
  List.flatMap_congr fun frame member => by rw [kept frame member]

theorem namedSurvey {name : Bytes} {c c' : Cursor} (valid : c.Valid) (named : NameWritten name c c') :
    c'.surveyed own skip = c.surveyed own skip := by
  rw [Cursor.surveyed,named.frames]
  exact surveyKept own skip fun frame member => named.prefixes _ (frameBelow valid member)

end kept

theorem namedPath {name : Bytes} {c c' : Cursor} (named : NameWritten name c c') {frame : Frame} {parents : List Frame}
    (top : c.frames = frame :: parents) : c'.path = c.data.take frame.len ++ slash :: name := by
  rw [named.path]
  simp [Cursor.base,top]

section close
variable {c : Cursor}

theorem closed (valid : c.Valid) {frame : Frame} {parents : List Frame} (top : c.frames = frame :: parents) :
    (walkClose c).Valid ∧ (walkClose c).frames = parents ∧ (walkClose c).started = c.started ∧
    c.scanErrors ≤ (walkClose c).scanErrors ∧
    ∀ {β : Type} (own : Bytes → Kind → List β) skip, (walkClose c).surveyed own skip =
      parents.flatMap fun parent => parent.rest.survey own skip (c.data.take parent.len) := by
  have nested := valid.nested
  have fits := valid.fits
  rw [top] at nested fits
  have below (parent : Frame) (member : parent ∈ parents) : parent.len ≤ frame.len :=
    List.rel_of_pairwise_cons nested member
  simp only [walkClose,top]
  refine ⟨⟨fun parent member => ?_,nested.tail,fun idle => ?_⟩,trivial,trivial,?_,fun own skip => ?_⟩
  · simpa using fits parent (List.mem_cons_of_mem _ member)
  · exact absurd (valid.idle idle) (by simp [top])
  · split <;> omega
  · refine surveyKept own skip fun parent member => ?_
    exact List.take_set_of_le (below parent member)

theorem closedAll (valid : c.Valid) : ∀ n, c.frames.length ≤ n →
    (closeAll n c).Valid ∧ (closeAll n c).frames = [] ∧ (closeAll n c).started = c.started ∧
    c.scanErrors ≤ (closeAll n c).scanErrors := by
  intro n enough
  induction n generalizing c with
  | zero => exact ⟨valid,List.length_eq_zero_iff.mp (Nat.le_zero.mp enough),rfl,le_rfl⟩
  | succ n ih =>
    cases top : c.frames with
    | nil =>
      have same : walkClose c = c := by simp [walkClose,top]
      simpa only [closeAll,same] using ih valid (by simp [top])
    | cons frame parents =>
      obtain ⟨kept,rest,started,more,_⟩ := closed valid top
      obtain ⟨kept',none,started',more'⟩ := ih kept (by rw [rest]; simp only [top,List.length_cons] at enough; omega)
      exact ⟨kept',none,started'.trans started,more.trans more'⟩

theorem aborted (valid : c.Valid) : (walkAbort c).Valid ∧ (walkAbort c).frames = [] ∧
    (walkAbort c).started = c.started ∧ c.scanErrors ≤ (walkAbort c).scanErrors :=
  closedAll valid _ le_rfl

end close

/- A move takes what it gives from the head of what the walk has still to gather,
and hands out the files, unless it counts an error. -/
structure Surveys {β : Type} (own : Bytes → Kind → List β) (skip : Bytes → Bool) (todo now : List β)
    (files : List (Bytes × FileVisit)) (c c' : Cursor) (t : Turned) : Prop where
  valid : c'.Valid
  started : c'.started = c.started
  errors : c.scanErrors ≤ c'.scanErrors
  clean : c'.scanErrors = 0 → todo = now ++ c'.surveyed own skip
  hands : c'.scanErrors = 0 → t.visits = files
  stopped : ∀ rc, t = .ended rc → c'.frames = []

/- A move takes its visit from the head of what was to be visited, unless it
counts an error. -/
structure Moves (skip : Bytes → Bool) (todo : List (Bytes × FileVisit)) (c c' : Cursor) (t : Turned) : Prop where
  valid : c'.Valid
  started : c'.started = c.started
  errors : c.scanErrors ≤ c'.scanErrors
  clean : c'.scanErrors = 0 → todo = t.visits ++ c'.ahead skip
  stopped : ∀ rc, t = .ended rc → c'.frames = []

section moves
variable {β : Type} {own : Bytes → Kind → List β} {conf : WalkConf} {skip : Bytes → Bool}
  {files : List (Bytes × FileVisit)} {c : Cursor}

theorem surveysFrom {c₁ c' : Cursor} {todo now : List β} {t : Turned}
    (started : c₁.started = c.started) (errors : c.scanErrors ≤ c₁.scanErrors)
    (surveys : Surveys own skip todo now files c₁ c' t) : Surveys own skip todo now files c c' t :=
  ⟨surveys.valid,surveys.started.trans started,errors.trans surveys.errors,surveys.clean,surveys.hands,
    surveys.stopped⟩

theorem stays (valid : c.Valid) {todo now : List β} (same : todo = now ++ c.surveyed own skip) :
    Surveys own skip todo now [] c c .going :=
  ⟨valid,rfl,le_rfl,fun _ => same,fun _ => rfl,nofun⟩

theorem hands (valid : c.Valid) (v : FileVisit) (now : List β) :
    Surveys own skip (now ++ c.surveyed own skip) now [(c.path,v)] c c (.visit c.path v) :=
  ⟨valid,rfl,le_rfl,fun _ => rfl,fun _ => rfl,nofun⟩

theorem fails (valid : c.Valid) (todo now : List β) : Surveys own skip todo now files c c.scanError .going :=
  ⟨⟨valid.fits,valid.nested,valid.idle⟩,rfl,Nat.le_succ _,fun none => absurd none (Nat.succ_ne_zero _),
    fun none => absurd none (Nat.succ_ne_zero _),nofun⟩

theorem aborts (valid : c.Valid) (counted : 0 < c.scanErrors) (todo now : List β) :
    Surveys own skip todo now files c (walkAbort c) (.ended .abort) := by
  obtain ⟨valid',none,started,more⟩ := aborted valid
  exact ⟨valid',started,more,fun zero => by omega,fun zero => by omega,fun _ _ => none⟩

theorem openCases (d : DirAnswers) (sub : Listing) (c : Cursor) :
    walkOpen d sub c = (.abort,c.scanError) ∨
    (d.opened = .ok ∧ walkOpen d sub c = (.ok,{c with frames := ⟨c.len,sub,d.closed⟩ :: c.frames})) ∨
    (d.opened = .failed ∧ walkOpen d sub c = (.error,c.scanError)) ∨
    (d.opened.present = false ∧ ∃ rc, rc ≠ .ok ∧ rc ≠ .abort ∧ walkOpen d sub c = (rc,c)) := by
  unfold walkOpen
  split
  · exact .inl rfl
  · right
    cases d.opened with
    | ok => exact .inl ⟨rfl,rfl⟩
    | failed => exact .inr (.inl ⟨rfl,rfl⟩)
    | vanished => exact .inr (.inr ⟨rfl,.error,by decide,by decide,rfl⟩)
    | declined => exact .inr (.inr ⟨rfl,.declined,by decide,by decide,rfl⟩)

theorem opened {d : DirAnswers} {sub : Listing} {rc : Rc} {c' : Cursor} (valid : c.Valid)
    (running : c.started = true) (fits : c.len < c.data.length) (above : c.base ≤ c.len)
    (answer : walkOpen d sub c = (rc,c')) (now : List β) :
    Surveys own skip (now ++ ((if d.opened.present then sub.survey own skip c.path else []) ++ c.surveyed own skip)) now
      [] c c' .going ∧
    (rc = .abort → 0 < c'.scanErrors) ∧ (rc ≠ .ok → c'.frames = c.frames) := by
  rcases openCases d sub c with refused | ⟨there,pushed⟩ | ⟨there,refused⟩ | ⟨absent,code,notOk,notAbort,same⟩
  · rw [refused] at answer
    cases answer
    exact ⟨fails valid _ _,fun _ => Nat.succ_pos _,fun _ => rfl⟩
  · rw [pushed] at answer
    cases answer
    refine ⟨⟨⟨fun frame member => ?_,?_,fun idle => ?_⟩,rfl,le_rfl,fun _ => ?_,fun _ => rfl,nofun⟩,nofun,
      fun bad => absurd rfl bad⟩
    · rcases List.mem_cons.mp member with rfl | older
      · exact fits
      · exact valid.fits frame older
    · exact List.pairwise_cons.mpr ⟨fun parent member => (frameBelow valid member).trans above,valid.nested⟩
    · exact absurd (running.symm.trans idle) (by decide)
    · simp [there,Answer.present,Cursor.surveyed,Cursor.path]
  · rw [refused] at answer
    cases answer
    exact ⟨fails valid _ _,nofun,fun _ => rfl⟩
  · rw [same] at answer
    cases answer
    exact ⟨stays valid (by simp [absent]),fun bad => absurd bad notAbort,fun _ => rfl⟩

theorem entrySurveys {kind : Kind} {sub : Listing} (valid : c.Valid) (running : c.started = true)
    (fits : c.len < c.data.length) (above : c.base ≤ c.len) :
    Surveys own (isProtectedPath conf)
      ((own c.path kind ++ kind.below own (isProtectedPath conf) sub c.path) ++ c.surveyed own (isProtectedPath conf))
      (own c.path kind) (fileVisits c.path kind) c (walkEntry conf kind sub c).1 (walkEntry conf kind sub c).2 := by
  cases kind with
  | other => exact stays valid (by simp [Kind.below])
  | file v =>
    simp only [walkEntry,Kind.below,List.append_nil,fileVisits]
    cases v.stat with
    | ok => exact hands valid v _
    | failed => exact fails valid _ _
    | vanished => exact stays valid rfl
    | declined => exact stays valid rfl
  | directory d =>
    by_cases skipped : isProtectedPath conf c.path = true
    · simp only [walkEntry,skipped,if_true]
      exact stays valid (by simp [Kind.below,skipped])
    · simp only [Bool.not_eq_true] at skipped
      simp only [walkEntry,Kind.below,skipped,Bool.not_false,Bool.and_true,Bool.false_eq_true,if_false,
        List.append_assoc]
      generalize answer : walkOpen d sub c = outcome
      obtain ⟨rc,c₁⟩ := outcome
      obtain ⟨surveys,counted,_⟩ := @opened _ own (isProtectedPath conf) c d sub rc c₁ valid running fits above answer
        (own c.path (.directory d))
      cases rc with
      | abort =>
        exact surveysFrom surveys.started surveys.errors (aborts surveys.valid (counted rfl) _ _)
      | _ => exact surveys

theorem readSurveys (valid : c.Valid) (running : c.started = true) {frame : Frame} {parents : List Frame}
    (top : c.frames = frame :: parents) :
    Surveys own (isProtectedPath conf) (c.surveyed own (isProtectedPath conf)) (c.current own)
      (c.current fileVisits) c (walkRead conf frame parents c).1 (walkRead conf frame parents c).2 := by
  unfold walkRead
  cases rest : frame.rest with
  | done =>
    obtain ⟨valid',_,started,errors,ahead⟩ := closed valid top
    refine ⟨valid',started,errors,fun _ => ?_,fun _ => by simp [Cursor.current,top,rest,Turned.visits],nofun⟩
    rw [ahead]
    simp [Cursor.surveyed,Cursor.current,top,rest,Listing.survey]
  | broken after =>
    have counted : c.scanError.Valid := ⟨valid.fits,valid.nested,valid.idle⟩
    obtain ⟨valid',_,started,errors,_⟩ := closed counted (c := c.scanError) top
    have more : c.scanErrors + 1 ≤ (walkClose c.scanError).scanErrors := errors
    exact ⟨valid',started,by simp only; omega,fun zero => by simp only at zero; omega,
      fun zero => by simp only at zero; omega,nofun⟩
  | entry name answers kind sub after =>
    simp only
    generalize next : ({c with frames := {frame with rest := after} :: parents} : Cursor) = c₀
    have valid₀ : c₀.Valid := next ▸ restValid valid running top after
    have same : c₀.started = c.started ∧ c₀.scanErrors = c.scanErrors := by subst next; exact ⟨rfl,rfl⟩
    have now {γ : Type} (give : Bytes → Kind → List γ) : c.current give =
        if dotName name || !answers.info.present then [] else give (c₀.data.take frame.len ++ slash :: name) kind := by
      subst next
      simp [Cursor.current,top,rest]
    have todo : c.surveyed own (isProtectedPath conf) =
        (if dotName name || !answers.info.present then []
          else own (c₀.data.take frame.len ++ slash :: name) kind ++
            kind.below own (isProtectedPath conf) sub (c₀.data.take frame.len ++ slash :: name)) ++
          c₀.surveyed own (isProtectedPath conf) := by
      subst next
      simp only [Cursor.surveyed,top,List.flatMap_cons,rest,entrySurvey,List.append_assoc]
    rw [todo,now,now]
    refine surveysFrom same.1 same.2.ge ?_
    by_cases dot : dotName name = true
    · simp only [dot,Bool.true_or,if_true]
      exact stays valid₀ rfl
    · simp only [Bool.not_eq_true] at dot
      simp only [dot,Bool.false_or,Bool.false_eq_true,if_false]
      cases written : walkName answers.room name c₀ with
      | none =>
        simp only
        have counted : c₀.scanError.Valid := ⟨valid₀.fits,valid₀.nested,valid₀.idle⟩
        refine surveysFrom ?_ ?_ (aborts counted (Nat.succ_pos _) _ _)
        · rfl
        · exact Nat.le_succ _
      | some c₁ =>
        have named := nameWritten valid₀ written
        have top₀ : c₀.frames = {frame with rest := after} :: parents := by subst next; rfl
        have path := namedPath named top₀
        simp only at path
        rw [← namedSurvey _ _ valid₀ named,← path]
        refine surveysFrom named.started named.scanErrors.ge ?_
        have running₁ : c₁.started = true := (named.started.trans same.1).trans running
        have above : c₁.base ≤ c₁.len := by
          have low := named.above
          simpa only [Cursor.base,named.frames] using low
        cases info : answers.info with
        | ok => exact entrySurveys named.valid running₁ named.fits above
        | failed => exact fails named.valid _ _
        | vanished => exact stays named.valid rfl
        | declined => exact stays named.valid rfl

theorem readMoves (valid : c.Valid) (running : c.started = true) {frame : Frame} {parents : List Frame}
    (top : c.frames = frame :: parents) :
    Moves (isProtectedPath conf) (c.ahead (isProtectedPath conf)) c (walkRead conf frame parents c).1
      (walkRead conf frame parents c).2 := by
  have surveys := @readSurveys _ fileVisits conf c valid running frame parents top
  refine ⟨surveys.valid,surveys.started,surveys.errors,fun zero => ?_,surveys.stopped⟩
  rw [aheadSurvey,aheadSurvey,surveys.hands zero]
  exact surveys.clean zero

end moves
end Cursor

structure WalkTurned (conf : WalkConf) (tree : Tree) (c c' : Cursor) (t : Turned) : Prop where
  valid : c'.Valid
  started : c'.started = true
  errors : c.started = true → c.scanErrors ≤ c'.scanErrors
  clean : c'.scanErrors = 0 → c.pending conf tree = t.visits ++ c'.pending conf tree
  stopped : ∀ rc, t = .ended rc → c'.frames = []

structure WalkSurveyed {β : Type} (own : Bytes → Kind → List β) (conf : WalkConf) (tree : Tree) (c c' : Cursor)
    (t : Turned) : Prop where
  valid : c'.Valid
  started : c'.started = true
  errors : c.started = true → c.scanErrors ≤ c'.scanErrors
  clean : c'.scanErrors = 0 → c.outstanding own conf tree = c.examines own ++ c'.outstanding own conf tree
  hands : c'.scanErrors = 0 → t.visits = c.examines fileVisits
  stopped : ∀ rc, t = .ended rc → c'.frames = []

section turns
variable {β : Type} (own : Bytes → Kind → List β) (conf : WalkConf) (tree : Tree) {c : Cursor}

theorem startSurveyed (valid : c.Valid) (idle : c.started = false) :
    WalkSurveyed own conf tree c (walkStart conf tree c).1 (walkStart conf tree c).2 := by
  have empty := valid.idle idle
  have quiet {γ : Type} (give : Bytes → Kind → List γ) : c.examines give = [] := by simp [Cursor.examines,idle]
  unfold walkStart
  simp only
  generalize fresh : ({c with started := true, scanErrors := 0} : Cursor) = c₀
  have frames₀ : c₀.frames = [] := by subst fresh; exact empty
  have running₀ : c₀.started = true := by subst fresh; rfl
  have valid₀ : c₀.Valid := ⟨by simp [frames₀],by simp [frames₀],fun _ => frames₀⟩
  cases written : walkName tree.room conf.root c₀ with
  | none =>
    exact ⟨⟨valid₀.fits,valid₀.nested,valid₀.idle⟩,running₀,fun h => absurd (idle.symm.trans h) (by decide),
      fun zero => absurd zero (Nat.succ_ne_zero _),fun zero => absurd zero (Nat.succ_ne_zero _),fun _ _ => frames₀⟩
  | some c₁ =>
    have named := Cursor.nameWritten valid₀ written
    have frames₁ : c₁.frames = [] := named.frames.trans frames₀
    have running₁ := named.started.trans running₀
    have path : c₁.path = conf.root := by simp [named.path,frames₀,Cursor.base]
    simp only
    generalize answer : walkOpen tree.dir tree.listing c₁ = outcome
    obtain ⟨rc,c₂⟩ := outcome
    obtain ⟨surveys,_,same⟩ := @Cursor.opened β own (isProtectedPath conf) c₁ tree.dir tree.listing rc c₂ named.valid
      running₁ named.fits (by simp [Cursor.base,frames₁]) answer []
    have running₂ := surveys.started.trans running₁
    have todo (zero : c₂.scanErrors = 0) : c.outstanding own conf tree = c₂.outstanding own conf tree := by
      have step := surveys.clean zero
      rw [path] at step
      simpa [Cursor.outstanding,idle,running₂,Tree.survey,Cursor.surveyed,frames₁] using step
    have base : WalkSurveyed own conf tree c c₂ .going :=
      ⟨surveys.valid,running₂,fun h => absurd (idle.symm.trans h) (by decide),
        fun zero => by rw [quiet,List.nil_append]; exact todo zero,fun _ => by rw [quiet]; rfl,nofun⟩
    cases rc with
    | ok => exact base
    | _ =>
      exact ⟨base.valid,base.started,base.errors,base.clean,base.hands,fun _ _ => (same (by decide)).trans frames₁⟩

theorem turnSurveyed (valid : c.Valid) :
    WalkSurveyed own conf tree c (walkTurn conf tree c).1 (walkTurn conf tree c).2 := by
  unfold walkTurn
  cases running : c.started with
  | false => exact startSurveyed own conf tree valid running
  | true =>
    have now {γ : Type} (give : Bytes → Kind → List γ) : c.examines give = c.current give := by
      simp [Cursor.examines,running]
    simp only [Bool.not_true,Bool.false_eq_true,if_false]
    cases top : c.frames with
    | nil =>
      have nothing {γ : Type} (give : Bytes → Kind → List γ) : c.examines give = [] := by
        rw [now]
        simp [Cursor.current,top]
      exact ⟨valid,running,fun _ => le_rfl,fun _ => by rw [nothing]; rfl,fun _ => by rw [nothing]; rfl,fun _ _ => top⟩
    | cons frame parents =>
      have surveys := @Cursor.readSurveys β own conf c valid running frame parents top
      refine ⟨surveys.valid,surveys.started.trans running,fun _ => surveys.errors,fun zero => ?_,fun zero => ?_,
        surveys.stopped⟩
      · rw [now]
        simpa only [Cursor.outstanding,running,surveys.started.trans running,if_true] using surveys.clean zero
      · rw [now]
        exact surveys.hands zero

variable {conf tree} in
theorem surveyedTurned {c' : Cursor} {t : Turned} (surveyed : WalkSurveyed fileVisits conf tree c c' t) :
    WalkTurned conf tree c c' t := by
  refine ⟨surveyed.valid,surveyed.started,surveyed.errors,fun zero => ?_,surveyed.stopped⟩
  rw [Cursor.pendingSurvey,Cursor.pendingSurvey,surveyed.hands zero]
  exact surveyed.clean zero

theorem startTurned (valid : c.Valid) (idle : c.started = false) :
    WalkTurned conf tree c (walkStart conf tree c).1 (walkStart conf tree c).2 :=
  surveyedTurned (startSurveyed fileVisits conf tree valid idle)

theorem turned (valid : c.Valid) :
    WalkTurned conf tree c (walkTurn conf tree c).1 (walkTurn conf tree c).2 :=
  surveyedTurned (turnSurveyed fileVisits conf tree valid)

end turns

theorem protectedBelow {conf : WalkConf} {dir path : Bytes} (within : dir = conf.root ∨ Below conf.root dir)
    (skipped : isProtectedPath conf dir = true) (below : Below dir path) : isProtectedPath conf path = true := by
  have inside : Below conf.root path := by
    rcases within with rfl | within
    · exact below
    · exact belowTrans within below
  unfold isProtectedPath at skipped ⊢
  simp only [Bool.or_eq_true,Bool.not_eq_true',List.any_eq_true,Bool.and_eq_true,decide_eq_true_eq] at skipped ⊢
  by_cases named : pathLength conf.platform conf.root = 0
  · left
    simp [pathContains,named]
  · rcases skipped with outside | ⟨name,member,long,contains⟩
    · rw [rootContains conf.platform named within] at outside
      contradiction
    · exact .inr ⟨name,member,long,containsBelow conf.platform contains below⟩

inductive Listing.Reaches (skip : Bytes → Bool) : Listing → Bytes → Bytes → FileVisit → Prop where
  | file {name answers v sub rest dir} (named : dotName name = false) (there : answers.info.present = true)
      (regular : v.stat.present = true) :
      Reaches skip (.entry name answers (.file v) sub rest) dir (dir ++ slash :: name) v
  | inside {name answers d sub rest dir path v} (named : dotName name = false)
      (there : answers.info.present = true) (opens : d.opened.present = true)
      (free : skip (dir ++ slash :: name) = false) (reaches : Reaches skip sub (dir ++ slash :: name) path v) :
      Reaches skip (.entry name answers (.directory d) sub rest) dir path v
  | later {name answers kind sub rest dir path v} (reaches : Reaches skip rest dir path v) :
      Reaches skip (.entry name answers kind sub rest) dir path v
  | past {rest dir path v} (reaches : Reaches skip rest dir path v) : Reaches skip (.broken rest) dir path v

section reaches
variable {skip : Bytes → Bool} {listing : Listing} {dir path : Bytes} {v : FileVisit}

theorem visitsReach : (path,v) ∈ listing.visits skip dir ↔ listing.Reaches skip dir path v := by
  constructor
  · intro member
    induction listing generalizing dir with
    | done => simp [Listing.visits] at member
    | broken rest ih => exact .past (ih member)
    | entry name answers kind sub rest ihSub ih =>
      rw [Cursor.entryVisits] at member
      rcases List.mem_append.mp member with here | after
      · split at here
        · simp at here
        · rename_i passed
          simp only [Bool.or_eq_true,Bool.not_eq_true',not_or,Bool.not_eq_true,Bool.not_eq_false] at passed
          cases kind with
          | other => simp [Kind.visits] at here
          | file w =>
            simp only [Kind.visits] at here
            split at here
            · rename_i regular
              cases List.mem_singleton.mp here
              exact .file passed.1 passed.2 regular
            · simp at here
          | directory d =>
            simp only [Kind.visits] at here
            split at here
            · rename_i entered
              simp only [Bool.and_eq_true,Bool.not_eq_true'] at entered
              exact .inside passed.1 passed.2 entered.1 entered.2 (ihSub here)
            · simp at here
      · exact .later (ih after)
  · intro reaches
    induction reaches with
    | file named there regular =>
      rw [Cursor.entryVisits]
      exact List.mem_append_left _ (by simp [named,there,Kind.visits,regular])
    | inside named there opens free _ ih =>
      rw [Cursor.entryVisits]
      exact List.mem_append_left _ (by simpa [named,there,Kind.visits,opens,free] using ih)
    | later _ ih =>
      rw [Cursor.entryVisits]
      exact List.mem_append_right _ ih
    | past _ ih => exact ih

theorem reachesBelow (reaches : listing.Reaches skip dir path v) : Below dir path := by
  induction reaches with
  | @file name => exact ⟨name,rfl⟩
  | @inside name _ _ _ _ _ _ _ _ _ _ _ _ ih => exact belowTrans ⟨name,rfl⟩ ih
  | later _ ih => exact ih
  | past _ ih => exact ih

theorem visitsBelow (member : (path,v) ∈ listing.visits skip dir) : Below dir path :=
  reachesBelow (visitsReach.mp member)

theorem reachesAll (reaches : listing.Reaches skip dir path v) : listing.Reaches (fun _ => false) dir path v := by
  induction reaches with
  | file named there regular => exact .file named there regular
  | inside named there opens _ _ ih => exact .inside named there opens rfl ih
  | later _ ih => exact .later ih
  | past _ ih => exact .past ih

theorem visitsAll {x : Bytes × FileVisit} (member : x ∈ listing.visits skip dir) :
    x ∈ listing.visits (fun _ => false) dir := visitsReach.mpr (reachesAll (visitsReach.mp member))

theorem reachedOrSkipped (skip : Bytes → Bool) (reaches : listing.Reaches (fun _ => false) dir path v) :
    listing.Reaches skip dir path v ∨ ∃ d, Below dir d ∧ skip d = true ∧ Below d path := by
  induction reaches with
  | file named there regular => exact .inl (.file named there regular)
  | @inside name _ _ _ _ dir _ _ named there opens _ reaches ih =>
    have step : Below dir (dir ++ slash :: name) := ⟨name,rfl⟩
    cases free : skip (dir ++ slash :: name) with
    | true => exact .inr ⟨_,step,free,reachesBelow reaches⟩
    | false =>
      rcases ih with found | ⟨d,inside,skipped,below⟩
      · exact .inl (.inside named there opens free found)
      · exact .inr ⟨d,belowTrans step inside,skipped,below⟩
  | later _ ih => exact ih.imp_left .later
  | past _ ih => exact ih.imp_left .past

theorem visitedOrSkipped (skip : Bytes → Bool) (member : (path,v) ∈ listing.visits (fun _ => false) dir) :
    (path,v) ∈ listing.visits skip dir ∨ ∃ d, Below dir d ∧ skip d = true ∧ Below d path :=
  (reachedOrSkipped skip (visitsReach.mp member)).imp_left visitsReach.mpr

end reaches

theorem visitsUnprotected {conf : WalkConf} {tree : Tree} {path : Bytes} {v : FileVisit}
    (member : (path,v) ∈ tree.visits (fun _ => false) conf.root)
    (unprotected : isProtectedPath conf path = false) :
    (path,v) ∈ tree.visits (isProtectedPath conf) conf.root := by
  unfold Tree.visits at member ⊢
  split at member
  · rename_i there
    rw [if_pos there]
    rcases visitedOrSkipped (isProtectedPath conf) member with found | ⟨d,inside,skipped,below⟩
    · exact found
    · rw [protectedBelow (.inr inside) skipped below] at unprotected
      contradiction
  · simp at member

end CachePurge
