import CachePurge.General.Machine
import CachePurge.WalkSlices

/-! The cursor from the outside: ngx_http_cache_purge_walk_step with the directory
handles it has open and the names they were opened under, in any slices, and in one
walk after another. What it hands to the visitor is the name of that file. -/
namespace CachePurge
open General

structure Walker where
  cursor : Cursor
  handles : Int
  names : List Bytes
  last : Bytes

/- ngx_http_cache_purge_open_dir: below the root, a descriptor is there when fdopendir
fails, and is closed again. -/
def openDir (parent late : Bool) (opened : Answer) (handles : Int) : Int :=
  match opened with
  | .ok => handles + 1
  | _ => if parent && late then handles + 1 - 1 else handles

section walker
variable (conf : WalkConf) (late : Cursor → Bool)

/- ngx_http_cache_purge_walk_open, of the last name -/
def walkerOpen (d : DirAnswers) (listing : Listing) (w : Walker) : Rc × Walker :=
  let made := walkOpen d listing w.cursor
  let parent := !w.cursor.frames.isEmpty
  (made.1,{w with
    cursor := made.2
    handles := if d.frame then openDir parent (late w.cursor) d.opened w.handles else w.handles
    names := if made.1 = .ok then w.last :: w.names else w.names})

def walkerClose (w : Walker) : Walker :=
  match w.cursor.frames with
  | [] => w
  | _ :: _ => {w with
    cursor := walkClose w.cursor
    handles := w.handles - 1
    names := w.names.tail}

def walkerCloseAll : Nat → Walker → Walker
  | 0, w => w
  | n + 1, w => walkerCloseAll n (walkerClose w)

def walkerAbort (w : Walker) : Walker := walkerCloseAll w.cursor.frames.length w

def walkerEntry (kind : Kind) (sub : Listing) (w : Walker) : Walker × Turned :=
  match kind with
  | .directory d =>
    if isProtectedPath conf w.cursor.path then (w,.going)
    else match walkerOpen late d sub w with
      | (.abort, w) => (walkerAbort w,.ended .abort)
      | (_, w) => (w,.going)
  | kind =>
    let seen := walkEntry conf kind sub w.cursor
    ({w with cursor := seen.1},seen.2)

def walkerRead (frame : Frame) (parents : List Frame) (w : Walker) : Walker × Turned :=
  match frame.rest with
  | .done => (walkerClose w,.going)
  | .broken _ => (walkerClose {w with cursor := w.cursor.scanError},.going)
  | .entry name answers kind sub rest =>
    let c := {w.cursor with frames := {frame with rest := rest} :: parents}
    if dotName name then ({w with cursor := c},.going)
    else match walkName answers.room name c with
      | none => (walkerAbort {w with cursor := c.scanError},.ended .abort)
      | some c => match answers.info with
        | .ok => walkerEntry conf late kind sub {w with
          cursor := c
          last := name}
        | .failed => ({w with
          cursor := c.scanError
          last := name},.going)
        | _ => ({w with
          cursor := c
          last := name},.going)

def walkerStart (tree : Tree) (w : Walker) : Walker × Turned :=
  let c := {w.cursor with
    started := true
    scanErrors := 0}
  match walkName tree.room conf.root c with
  | none => ({w with cursor := c.scanError},.ended .abort)
  | some c =>
    match walkerOpen late tree.dir tree.listing {w with
      cursor := c
      last := conf.root} with
    | (.ok, w) => (w,.going)
    | (rc, w) => (w,.ended rc)

end walker

structure Visited where
  root : Bytes
  path : Bytes
  buffer : Bytes
  file : FileVisit
  opened : List Bytes
  entry : Bytes
  frames : Nat
  handles : Int

section step
variable {α : Type} (conf : WalkConf) (tree : Tree) (late : Cursor → Bool) (visit : Visitor α)

def walkerLoop : Loop (Walker × α) (Rc × Walker × α) Visited where
  exit s := match s.1.cursor.frames with
    | [] => some (if s.1.cursor.scanErrors ≠ 0 then .error else .ok,s)
    | _ :: _ => none
  body s := match s.1.cursor.frames with
    | [] => (.inl s,[])
    | frame :: parents => match walkerRead conf late frame parents s.1 with
      | (w, .going) => (.inl (w,s.2),[])
      | (w, .visit path v) =>
        let handled := visit path v s.2
        (.inl ({w with cursor := if handled.1 then w.cursor.scanError else w.cursor},handled.2),
          [⟨conf.root,path,w.cursor.data,v,w.names.reverse,w.last,w.cursor.frames.length,w.handles⟩])
      | (w, .ended rc) => (.inr (rc,w,s.2),[])

structure WalkerCall (α : Type) where
  rc : Rc
  walker : Walker
  state : α
  visited : List Visited

def WalkerCall.ofSlice (slice : Slice (Walker × α) (Rc × Walker × α) Visited) : WalkerCall α :=
  match slice.result with
  | .inl s => ⟨.again,s.1,s.2,slice.outputs⟩
  | .inr r => ⟨r.1,r.2.1,r.2.2,slice.outputs⟩

/- ngx_http_cache_purge_walk_step -/
def walkerStep (limit : Nat) (start : UInt64) (clock : Nat → UInt64) (w : Walker) (a : α) : WalkerCall α :=
  let begun := if w.cursor.started then (w,Turned.going) else walkerStart conf late tree w
  match begun.2 with
  | .ended rc => ⟨rc,begun.1,a,[]⟩
  | _ => .ofSlice ((walkerLoop conf late visit).slice (walkStop limit start clock) (begun.1.cursor.work + 1) 0 (begun.1,a))

end step

structure WalkerJob (α : Type) where
  conf : WalkConf
  tree : Tree
  walker : Walker
  state : α

inductive WalkerEvent where
  | call (limit : Nat) (start : UInt64) (clock : Nat → UInt64)
  -- A caller's loop over ngx_http_cache_purge_walk_close.
  | close
  -- The next walk, of a cursor with nothing open.
  | reset (conf : WalkConf) (tree : Tree)

inductive WalkerOutput where
  | visited (x : Visited)
  | returned (rc : Rc) (frames : Nat) (handles : Int)

section machine
variable {α : Type} (late : Cursor → Bool) (visit : Visitor α)

def WalkerJob.step (job : WalkerJob α) : WalkerEvent → WalkerJob α × List WalkerOutput
  | .call limit start clock =>
    let made := walkerStep job.conf job.tree late visit limit start clock job.walker job.state
    ({job with
      walker := made.walker
      state := made.state},
      made.visited.map .visited ++ [.returned made.rc made.walker.cursor.frames.length made.walker.handles])
  | .close => ({job with walker := walkerAbort job.walker},[])
  | .reset conf tree =>
    if job.walker.cursor.frames.isEmpty then
      (⟨conf,tree,{job.walker with cursor := {job.walker.cursor with started := false}},job.state⟩,[])
    else (job,[])

def walkerMachine : Machine (WalkerJob α) WalkerEvent WalkerOutput := ⟨WalkerJob.step late visit⟩

end machine

def Walker.fresh : Walker := ⟨⟨[],0,[],false,0⟩,0,[],[]⟩

def joined (names : List Bytes) : Bytes := [slash].intercalate names.reverse

inductive Prefixes (data : Bytes) : List Frame → List Bytes → Prop where
  | nil : Prefixes data [] []
  | cons {frame frames name names} (own : data.take frame.len = joined (name :: names))
      (parents : Prefixes data frames names) : Prefixes data (frame :: frames) (name :: names)

structure Walker.Whole (root : Bytes) (w : Walker) : Prop where
  valid : w.cursor.Valid
  handles : w.handles = w.cursor.frames.length
  prefixes : Prefixes w.cursor.data w.cursor.frames w.names
  rooted : ∀ name ∈ w.names.getLast?, name = root

structure Walker.Named (root : Bytes) (w : Walker) : Prop where
  whole : w.Whole root
  fits : w.cursor.len < w.cursor.data.length
  above : w.cursor.base ≤ w.cursor.len
  path : w.cursor.path = joined (w.last :: w.names)
  zero : w.cursor.data[w.cursor.len]? = some 0
  rooted : ∀ name ∈ (w.last :: w.names).getLast?, name = root

structure Walker.Kept (root : Bytes) (r : Walker × Turned) : Prop where
  whole : r.1.Whole root
  visit : ∀ path v, r.2 = .visit path v → r.1.Named root ∧ path = r.1.cursor.path ∧ r.1.cursor.frames ≠ []
  ended : ∀ rc, r.2 = .ended rc → rc ≠ .again ∧ r.1.cursor.frames = []

def Visited.Whole (x : Visited) : Prop :=
  x.opened.head? = some x.root ∧ x.path = [slash].intercalate (x.opened ++ [x.entry]) ∧
  x.buffer.take x.path.length = x.path ∧ x.buffer[x.path.length]? = some 0 ∧
  x.opened.length = x.frames ∧ x.handles = x.frames

section names

theorem intercalateLast {sep : Bytes} {front : List Bytes} (some_ : front ≠ []) (x : Bytes) :
    sep.intercalate (front ++ [x]) = sep.intercalate front ++ sep ++ x := by
  induction front with
  | nil => contradiction
  | cons y rest ih =>
    cases rest with
    | nil => simp [List.intercalate_cons_cons]
    | cons z rest =>
      have later := ih (List.cons_ne_nil z rest)
      rw [List.cons_append,List.cons_append,List.intercalate_cons_cons,List.intercalate_cons_cons]
      rw [List.cons_append] at later
      rw [later]
      simp

theorem joinedBehind {names : List Bytes} (some_ : names ≠ []) (name : Bytes) :
    joined (name :: names) = joined names ++ slash :: name := by
  rw [joined,List.reverse_cons,intercalateLast (by simpa using some_),List.append_assoc]
  rfl

theorem joinedOne (name : Bytes) : joined [name] = name := List.intercalate_singleton

theorem prefixesLength {data : Bytes} {frames : List Frame} {names : List Bytes} (prefixes : Prefixes data frames names) :
    frames.length = names.length := by
  induction prefixes with
  | nil => rfl
  | cons own parents ih => simp [ih]

theorem prefixesKept {data data' : Bytes} {frames : List Frame} {names : List Bytes}
    (prefixes : Prefixes data frames names) (kept : ∀ frame ∈ frames, data'.take frame.len = data.take frame.len) :
    Prefixes data' frames names := by
  induction prefixes with
  | nil => exact .nil
  | cons own parents ih =>
    refine .cons ((kept _ List.mem_cons_self).trans own) (ih fun frame member => ?_)
    exact kept frame (List.mem_cons_of_mem _ member)

end names

section moves
variable {conf : WalkConf} {late : Cursor → Bool} {root : Bytes} {w : Walker}

theorem wholeErrors (whole : w.Whole root) (n : Nat) :
    Walker.Whole root {w with cursor := {w.cursor with scanErrors := n}} :=
  ⟨⟨whole.valid.fits,whole.valid.nested,whole.valid.idle⟩,whole.handles,whole.prefixes,whole.rooted⟩

theorem closeCursor (w : Walker) : (walkerClose w).cursor = walkClose w.cursor := by
  rw [walkerClose]
  split
  · rename_i none_
    simp [walkClose,none_]
  · rfl

theorem closeAllCursor (n : Nat) (w : Walker) : (walkerCloseAll n w).cursor = closeAll n w.cursor := by
  induction n generalizing w with
  | zero => rfl
  | succ n ih => rw [walkerCloseAll,ih,closeCursor,closeAll]

theorem abortCursor (w : Walker) : (walkerAbort w).cursor = walkAbort w.cursor := closeAllCursor _ w

theorem wholeClose (whole : w.Whole root) : (walkerClose w).Whole root := by
  have valid : (walkerClose w).cursor.Valid := by
    rw [closeCursor]
    cases top : w.cursor.frames with
    | nil => simpa [walkClose,top] using whole.valid
    | cons frame parents => exact (Cursor.closed whole.valid top).1
  have nested := whole.valid.nested
  have handles := whole.handles
  have prefixes := whole.prefixes
  have rooted := whole.rooted
  rw [walkerClose] at valid ⊢
  split at valid
  · exact whole
  · rename_i frame parents top
    rw [top] at nested handles prefixes
    have kept (parent : Frame) (member : parent ∈ parents) :
        (w.cursor.data.set frame.len 0).take parent.len = w.cursor.data.take parent.len :=
      List.take_set_of_le (List.rel_of_pairwise_cons nested member)
    obtain ⟨data,closes⟩ : (walkClose w.cursor).data = w.cursor.data.set frame.len 0 ∧
        (walkClose w.cursor).frames = parents := by
      simp [walkClose,top]
    cases named : w.names with
    | nil => rw [named] at prefixes; cases prefixes
    | cons name names =>
      rw [named] at prefixes rooted
      cases prefixes with
      | cons own older =>
        refine ⟨valid,?_,?_,fun last member => ?_⟩
        · simp only [closes,handles,List.length_cons]
          omega
        · simp only [data,closes,List.tail_cons]
          exact prefixesKept older kept
        · rw [List.tail_cons] at member
          refine rooted last ?_
          cases names with
          | nil => simp at member
          | cons first rest => rwa [List.getLast?_cons_cons]

theorem wholeCloseAll (whole : w.Whole root) (n : Nat) : (walkerCloseAll n w).Whole root := by
  induction n generalizing w with
  | zero => exact whole
  | succ n ih => exact ih (wholeClose whole)

theorem keptAbort (whole : w.Whole root) : Walker.Kept root (walkerAbort w,.ended .abort) := by
  refine ⟨wholeCloseAll whole _,by simp,fun rc same => ?_⟩
  cases same
  refine ⟨by decide,?_⟩
  rw [abortCursor]
  exact (Cursor.aborted whole.valid).2.1

theorem keptGoing (whole : w.Whole root) : Walker.Kept root (w,.going) := ⟨whole,by simp,by simp⟩

theorem wholeRest (whole : w.Whole root) (running : w.cursor.started = true) {frame : Frame} {parents : List Frame}
    (top : w.cursor.frames = frame :: parents) (rest : Listing) :
    Walker.Whole root {w with cursor := {w.cursor with frames := {frame with rest := rest} :: parents}} := by
  have handles := whole.handles
  have prefixes := whole.prefixes
  rw [top] at handles prefixes
  refine ⟨Cursor.restValid whole.valid running top rest,handles,?_,whole.rooted⟩
  cases named : w.names with
  | nil => rw [named] at prefixes; cases prefixes
  | cons name names =>
    rw [named] at prefixes
    cases prefixes with
    | cons own older =>
      exact .cons own older

theorem nameZero {room : Option (Nat → UInt8)} {name : Bytes} {c c' : Cursor} (valid : c.Valid)
    (written : walkName room name c = some c') : c'.data[c'.len]? = some 0 := by
  obtain ⟨data,separator,_,enough,_,rfl⟩ := Cursor.nameBytes valid written
  simp only
  have text := @overwritten data (separator ++ name ++ [0]) c.base (by omega)
  have front : (data.take c.base ++ (separator ++ name)).length = c.base + separator.length + name.length := by
    simp
    omega
  have last : c.base + separator.length + name.length < c.base + (separator ++ name ++ [0]).length := by simp; omega
  rw [← List.getElem?_take_of_lt last,text,← front,← List.append_assoc (data.take c.base)]
  exact List.getElem?_concat_length

theorem wholeNamed (whole : w.Whole root) {room : Option (Nat → UInt8)} {name : Bytes} {c : Cursor}
    (written : walkName room name w.cursor = some c) (first : w.cursor.frames = [] → name = root) :
    Walker.Named root {w with
      cursor := c
      last := name} := by
  have named := Cursor.nameWritten whole.valid written
  have prefixes : Prefixes c.data c.frames w.names := by
    rw [named.frames]
    exact prefixesKept whole.prefixes fun frame member => named.prefixes _ (Cursor.frameBelow whole.valid member)
  have above : c.base ≤ c.len := by simpa only [Cursor.base,named.frames] using named.above
  refine ⟨⟨named.valid,?_,prefixes,whole.rooted⟩,named.fits,above,?_,nameZero whole.valid written,fun last member => ?_⟩
  · simp only [named.frames,whole.handles]
  · simp only [named.path]
    have before := whole.prefixes
    cases opened : w.names with
    | nil =>
      rw [opened] at before
      generalize same : w.cursor.frames = frames at before
      cases before
      simp [Cursor.base,same,joinedOne]
    | cons own names =>
      rw [opened] at before
      generalize same : w.cursor.frames = frames at before
      cases before with
      | cons text older =>
        rw [joinedBehind (List.cons_ne_nil own names),← text]
        simp [Cursor.base,same]
  · have before := whole.prefixes
    have rooted := whole.rooted
    simp only at member
    cases opened : w.names with
    | nil =>
      rw [opened] at before member
      cases Option.some.inj member
      refine first ?_
      generalize w.cursor.frames = frames at before
      cases before
      rfl
    | cons own names =>
      rw [opened] at member rooted
      rw [List.getLast?_cons_cons] at member
      exact rooted last member

theorem openRefused {opened : Answer} (refused : opened ≠ .ok) (parent late : Bool) (handles : Int) :
    openDir parent late opened handles = handles := by
  have undone : (if parent && late then handles + 1 - 1 else handles) = handles := by
    split
    · omega
    · rfl
  cases opened with
  | ok => contradiction
  | _ => exact undone

theorem wholeOpen (named : w.Named root) (running : w.cursor.started = true) (d : DirAnswers) (sub : Listing) :
    (walkerOpen late d sub w).2.Whole root ∧ ((walkerOpen late d sub w).1 ≠ .ok →
      (walkerOpen late d sub w).2.cursor.frames = w.cursor.frames) := by
  have whole := named.whole
  have counted : Walker.Whole root {w with cursor := w.cursor.scanError} := wholeErrors whole (w.cursor.scanErrors + 1)
  cases frame : d.frame with
  | false =>
    have made : walkerOpen late d sub w = (.abort,{w with cursor := w.cursor.scanError}) := by
      simp [walkerOpen,walkOpen,frame]
    rw [made]
    exact ⟨counted,fun _ => rfl⟩
  | true =>
    cases answer : d.opened with
    | ok =>
      have made : walkerOpen late d sub w = (.ok,{w with
          cursor := {w.cursor with frames := ⟨w.cursor.len,sub,d.closed⟩ :: w.cursor.frames}
          handles := w.handles + 1
          names := w.last :: w.names}) := by
        simp [walkerOpen,walkOpen,frame,answer,openDir]
      rw [made]
      have text : w.cursor.data.take w.cursor.len = joined (w.last :: w.names) := named.path
      refine ⟨⟨⟨fun other member => ?_,?_,fun idle => ?_⟩,?_,.cons text whole.prefixes,named.rooted⟩,fun other => ?_⟩
      · rcases List.mem_cons.mp member with rfl | older
        · exact named.fits
        · exact whole.valid.fits other older
      · refine List.pairwise_cons.mpr ⟨fun other member => ?_,whole.valid.nested⟩
        exact (Cursor.frameBelow whole.valid member).trans named.above
      · exact absurd (running.symm.trans idle) (by decide)
      · simp [whole.handles]
      · contradiction
    | failed =>
      have made : walkerOpen late d sub w = (.error,{w with cursor := w.cursor.scanError}) := by
        simp [walkerOpen,walkOpen,frame,answer,openRefused]
      rw [made]
      exact ⟨counted,fun _ => rfl⟩
    | vanished =>
      have made : walkerOpen late d sub w = (.error,w) := by
        simp [walkerOpen,walkOpen,frame,answer,openRefused]
      rw [made]
      exact ⟨whole,fun _ => rfl⟩
    | declined =>
      have made : walkerOpen late d sub w = (.declined,w) := by
        simp [walkerOpen,walkOpen,frame,answer,openRefused]
      rw [made]
      exact ⟨whole,fun _ => rfl⟩

theorem keptNamed (named : w.Named root) (running : w.cursor.started = true) (open_ : w.cursor.frames ≠ [])
    (kind : Kind) (sub : Listing) : Walker.Kept root (walkerEntry conf late kind sub w) := by
  have whole := named.whole
  cases kind with
  | other => exact keptGoing whole
  | file v =>
    simp only [walkerEntry,walkEntry]
    split
    · refine ⟨whole,fun path v' same => ?_,by simp⟩
      cases same
      exact ⟨named,rfl,open_⟩
    · exact keptGoing (wholeErrors whole (w.cursor.scanErrors + 1))
    · exact keptGoing whole
  | directory d =>
    rw [walkerEntry]
    split
    · exact keptGoing whole
    · obtain ⟨next,_⟩ := @wholeOpen late root w named running d sub
      generalize walkerOpen late d sub w = made at next ⊢
      obtain ⟨rc,w'⟩ := made
      cases rc with
      | abort => exact keptAbort next
      | _ => exact keptGoing next

theorem keptRead (whole : w.Whole root) (running : w.cursor.started = true) {frame : Frame} {parents : List Frame}
    (top : w.cursor.frames = frame :: parents) : Walker.Kept root (walkerRead conf late frame parents w) := by
  unfold walkerRead
  cases rest : frame.rest with
  | done => exact keptGoing (wholeClose whole)
  | broken after => exact keptGoing (wholeClose (wholeErrors whole (w.cursor.scanErrors + 1)))
  | entry name answers kind sub after =>
    have next := wholeRest whole running top after
    simp only
    split
    · exact keptGoing next
    · split
      · exact keptAbort (wholeErrors next (w.cursor.scanErrors + 1))
      · rename_i c written
        have named := wholeNamed next written (by simp)
        have running' : c.started = true := (Cursor.nameWritten next.valid written).started.trans running
        have open_ : c.frames ≠ [] := by rw [(Cursor.nameWritten next.valid written).frames]; simp
        split
        · exact keptNamed named running' open_ kind sub
        · exact keptGoing (wholeErrors named.whole (c.scanErrors + 1))
        · exact keptGoing named.whole

theorem keptStart (whole : w.Whole conf.root) (closed : w.cursor.frames = []) (tree : Tree) :
    Walker.Kept conf.root (walkerStart conf late tree w) := by
  unfold walkerStart
  have fresh : Walker.Whole conf.root {w with cursor := {w.cursor with
      started := true
      scanErrors := 0}} :=
    ⟨⟨whole.valid.fits,whole.valid.nested,fun _ => closed⟩,whole.handles,whole.prefixes,whole.rooted⟩
  simp only
  split
  · refine ⟨wholeErrors fresh 1,by simp,fun rc same => ?_⟩
    cases same
    exact ⟨by decide,closed⟩
  · rename_i c written
    have named := wholeNamed fresh written fun _ => rfl
    have same := Cursor.nameWritten fresh.valid written
    have running : c.started = true := same.started
    obtain ⟨next,refused⟩ := @wholeOpen late conf.root _ named running tree.dir tree.listing
    have code : (walkerOpen late tree.dir tree.listing {w with
        cursor := c
        last := conf.root}).1 ≠ .again := openAnswers tree.dir tree.listing c
    have empty : c.frames = [] := same.frames.trans closed
    simp only at refused
    generalize walkerOpen late tree.dir tree.listing _ = made at next refused code ⊢
    obtain ⟨rc,w'⟩ := made
    cases rc with
    | ok => exact keptGoing next
    | _ =>
      refine ⟨next,by simp,fun rc ends => ?_⟩
      cases ends
      exact ⟨code,(refused (by simp)).trans empty⟩

end moves

section cursors
variable (conf : WalkConf) (late : Cursor → Bool)

theorem entryCursor (kind : Kind) (sub : Listing) (w : Walker) :
    ((walkerEntry conf late kind sub w).1.cursor,(walkerEntry conf late kind sub w).2) =
      walkEntry conf kind sub w.cursor := by
  cases kind with
  | other => rfl
  | file v => rfl
  | directory d =>
    rw [walkerEntry,walkEntry]
    split
    · rfl
    · have opened : ((walkerOpen late d sub w).1,(walkerOpen late d sub w).2.cursor) = walkOpen d sub w.cursor := rfl
      generalize walkerOpen late d sub w = made at opened ⊢
      rw [← opened]
      obtain ⟨rc,w'⟩ := made
      cases rc with
      | abort => exact congrArg (·,Turned.ended .abort) (abortCursor w')
      | _ => rfl

theorem readCursor (frame : Frame) (parents : List Frame) (w : Walker) :
    ((walkerRead conf late frame parents w).1.cursor,(walkerRead conf late frame parents w).2) =
      walkRead conf frame parents w.cursor := by
  unfold walkerRead walkRead
  cases rest : frame.rest with
  | done => exact congrArg (·,Turned.going) (closeCursor w)
  | broken after => exact congrArg (·,Turned.going) (closeCursor {w with cursor := w.cursor.scanError})
  | entry name answers kind sub after =>
    simp only
    split
    · rfl
    · cases written : walkName answers.room name {w.cursor with frames := {frame with rest := after} :: parents} with
      | none => exact congrArg (·,Turned.ended .abort) (abortCursor _)
      | some c =>
        cases info : answers.info with
        | ok => exact entryCursor conf late kind sub _
        | _ => rfl

theorem startCursor (tree : Tree) (w : Walker) :
    ((walkerStart conf late tree w).1.cursor,(walkerStart conf late tree w).2) = walkStart conf tree w.cursor := by
  unfold walkerStart walkStart
  simp only
  cases written : walkName tree.room conf.root {w.cursor with
      started := true
      scanErrors := 0} with
  | none => rfl
  | some c =>
    have opened : ((walkerOpen late tree.dir tree.listing {w with
        cursor := c
        last := conf.root}).1,(walkerOpen late tree.dir tree.listing {w with
        cursor := c
        last := conf.root}).2.cursor) = walkOpen tree.dir tree.listing c := rfl
    simp only
    generalize walkerOpen late tree.dir tree.listing _ = made at opened ⊢
    rw [← opened]
    obtain ⟨rc,w'⟩ := made
    cases rc <;> rfl

end cursors

section calls
variable {α : Type} {late : Cursor → Bool} {visit : Visitor α}

def Calling (conf : WalkConf) (past : List Visited) (s : Walker × α) : Prop :=
  s.1.Whole conf.root ∧ s.1.cursor.started = true ∧ ∀ x ∈ past, x.Whole

def Called (conf : WalkConf) (past : List Visited) (r : Rc × Walker × α) : Prop :=
  r.2.1.Whole conf.root ∧ r.1 ≠ .again ∧ r.2.1.cursor.frames = [] ∧ ∀ x ∈ past, x.Whole

variable {conf : WalkConf} {past : List Visited}

theorem visitedWhole {w : Walker} (named : w.Named conf.root) (open_ : w.cursor.frames ≠ []) (v : FileVisit) :
    Visited.Whole ⟨conf.root,w.cursor.path,w.cursor.data,v,w.names.reverse,w.last,w.cursor.frames.length,w.handles⟩ := by
  have length : w.cursor.path.length = w.cursor.len := by
    have fits := named.fits
    simp only [Cursor.path,List.length_take]
    omega
  have same := prefixesLength named.whole.prefixes
  refine ⟨?_,?_,?_,?_,?_,named.whole.handles⟩
  · simp only [List.head?_reverse]
    cases outermost : w.names.getLast? with
    | none =>
      rw [List.getLast?_eq_none_iff.mp outermost] at same
      exact absurd (List.length_eq_zero_iff.mp same) open_
    | some name => exact congrArg some (named.whole.rooted name outermost)
  · simpa [joined] using named.path
  · rw [length]
    rfl
  · rw [length]
    exact named.zero
  · simp [same]

theorem callingTurn {s s' : Walker × α} {out : List Visited} (calling : Calling conf past s)
    (open_ : (walkerLoop conf late visit).exit s = none)
    (turn : (walkerLoop conf late visit).body s = (.inl s',out)) : Calling conf (past ++ out) s' := by
  obtain ⟨whole,running,good⟩ := calling
  simp only [walkerLoop] at turn open_
  split at turn
  · rename_i none_
    simp [none_] at open_
  · rename_i frame parents top
    have kept := @keptRead conf late conf.root s.1 whole running frame parents top
    have started : (walkerRead conf late frame parents s.1).1.cursor.started = true := by
      have same : (walkerRead conf late frame parents s.1).1.cursor = (walkRead conf frame parents s.1.cursor).1 :=
        congrArg Prod.fst (readCursor conf late frame parents s.1)
      rw [same]
      exact (@Cursor.readMoves conf s.1.cursor whole.valid running frame parents top).started.trans running
    split at turn
    · rename_i w read
      rw [read] at kept started
      cases turn
      exact ⟨kept.whole,started,by simpa using good⟩
    · rename_i w path v read
      rw [read] at kept started
      cases turn
      obtain ⟨named,handed,opened⟩ := kept.visit path v rfl
      have handed : path = w.cursor.path := handed
      subst handed
      have next : Walker.Whole conf.root {w with
          cursor := if (visit w.cursor.path v s.2).1 then w.cursor.scanError else w.cursor} := by
        split
        · exact wholeErrors kept.whole (w.cursor.scanErrors + 1)
        · exact kept.whole
      refine ⟨next,?_,fun x member => ?_⟩
      · simp only
        split <;> exact started
      · rcases List.mem_append.mp member with before | now
        · exact good x before
        · rw [List.mem_singleton.mp now]
          exact visitedWhole named opened v
    · cases turn

theorem callingEnd {s : Walker × α} {r : Rc × Walker × α} {out : List Visited} (calling : Calling conf past s)
    (turn : (walkerLoop conf late visit).body s = (.inr r,out)) : Called conf (past ++ out) r := by
  obtain ⟨whole,running,good⟩ := calling
  simp only [walkerLoop] at turn
  split at turn
  · cases turn
  · rename_i frame parents top
    have kept := @keptRead conf late conf.root s.1 whole running frame parents top
    split at turn
    · cases turn
    · cases turn
    · rename_i w rc read
      rw [read] at kept
      cases turn
      obtain ⟨final,closed⟩ := kept.ended rc rfl
      exact ⟨kept.whole,final,closed,by simpa using good⟩

theorem callingExit {s : Walker × α} {r : Rc × Walker × α} (calling : Calling conf past s)
    (exits : (walkerLoop conf late visit).exit s = some r) : Called conf past r := by
  obtain ⟨whole,_,good⟩ := calling
  simp only [walkerLoop] at exits
  split at exits <;> try contradiction
  rename_i top
  cases Option.some.inj exits
  refine ⟨whole,?_,top,good⟩
  simp only
  split <;> decide

theorem stepWhole {w : Walker} (whole : w.Whole conf.root) (tree : Tree) (limit : Nat) (start : UInt64)
    (clock : Nat → UInt64) (a : α) : let made := walkerStep conf tree late visit limit start clock w a
    made.walker.Whole conf.root ∧ (made.rc ≠ .again → made.walker.cursor.frames = []) ∧ ∀ x ∈ made.visited, x.Whole := by
  have sliced {w : Walker} (whole : w.Whole conf.root) (running : w.cursor.started = true) (fuel : Nat) :
      let made := WalkerCall.ofSlice ((walkerLoop conf late visit).slice (walkStop limit start clock) fuel 0 (w,a))
      made.walker.Whole conf.root ∧ (made.rc ≠ .again → made.walker.cursor.frames = []) ∧
        ∀ x ∈ made.visited, x.Whole := by
    obtain ⟨n,_,trace⟩ := Loop.sliceTrace (l := walkerLoop conf late visit) (walkStop limit start clock) fuel 0 (w,a)
    have begun : Calling conf [] (w,a) := ⟨whole,running,by simp⟩
    have outcome := Loop.traceInvariant (P := Calling conf) (Q := Called conf)
      (fun past s r calling exits => callingExit calling exits)
      (fun past s r out calling _ turn => callingEnd calling turn)
      (fun past s s' out calling open_ turn => callingTurn calling open_ turn)
      begun trace
    rw [List.nil_append] at outcome
    generalize (walkerLoop conf late visit).slice (walkStop limit start clock) fuel 0 (w,a) = cut at outcome
    obtain ⟨result,out,turns⟩ := cut
    cases result with
    | inl s' =>
      obtain ⟨whole,_,good⟩ := outcome.1 s' rfl
      exact ⟨whole,fun final => absurd rfl final,good⟩
    | inr r =>
      obtain ⟨whole,_,closed,good⟩ := outcome.2 r rfl
      exact ⟨whole,fun _ => closed,good⟩
  intro made
  cases running : w.cursor.started with
  | true =>
    have same : made = WalkerCall.ofSlice ((walkerLoop conf late visit).slice (walkStop limit start clock)
        (w.cursor.work + 1) 0 (w,a)) := by
      simp [made,walkerStep,running]
    rw [same]
    exact sliced whole running _
  | false =>
    have kept := @keptStart conf late w whole (whole.valid.idle running) tree
    have started : (walkerStart conf late tree w).1.cursor.started = true := by
      have same : (walkerStart conf late tree w).1.cursor = (walkStart conf tree w.cursor).1 :=
        congrArg Prod.fst (startCursor conf late tree w)
      rw [same]
      exact (startTurned conf tree whole.valid running).started
    simp only [made,walkerStep,running,Bool.false_eq_true,if_false]
    generalize walkerStart conf late tree w = begun at kept started ⊢
    obtain ⟨w',t⟩ := begun
    cases t with
    | going => exact sliced kept.whole started _
    | visit path v => exact sliced kept.whole started _
    | ended rc => exact ⟨kept.whole,fun _ => (kept.ended rc rfl).2,by simp⟩

end calls

section steps
variable {α : Type} (conf : WalkConf) (tree : Tree) (late : Cursor → Bool) (visit : Visitor α)

def Visited.seen (x : Visited) : Bytes × FileVisit := (x.path,x.file)

theorem stepCursor (limit : Nat) (start : UInt64) (clock : Nat → UInt64) (w : Walker) (a : α) :
    let made := walkerStep conf tree late visit limit start clock w a
    let call := walkStep conf tree visit limit start clock w.cursor a
    call.rc = made.rc ∧ call.cursor = made.walker.cursor ∧ call.state = made.state ∧
      call.visited = made.visited.map Visited.seen := by
  have exits (s : Walker × α) : (walkLoop conf visit).exit (s.1.cursor,s.2) =
      ((walkerLoop conf late visit).exit s).map fun r => (r.1,r.2.1.cursor,r.2.2) := by
    simp only [walkLoop,walkerLoop]
    cases s.1.cursor.frames <;> rfl
  have turns (s : Walker × α) (open_ : (walkerLoop conf late visit).exit s = none) :
      (walkLoop conf visit).body (s.1.cursor,s.2) =
        (((walkerLoop conf late visit).body s).1.map (fun s => (s.1.cursor,s.2)) fun r => (r.1,r.2.1.cursor,r.2.2),
          ((walkerLoop conf late visit).body s).2.map Visited.seen) := by
    simp only [walkLoop,walkerLoop]
    cases top : s.1.cursor.frames with
    | nil => rfl
    | cons frame parents =>
      simp only [← readCursor conf late frame parents s.1]
      generalize walkerRead conf late frame parents s.1 = read
      obtain ⟨w',t⟩ := read
      cases t with
      | visit path v =>
        simp only [Sum.map_inl]
        split <;> rfl
      | _ => rfl
  have sliced (w : Walker) (fuel : Nat) := Loop.sliceMaps exits turns (walkStop limit start clock) fuel 0 (w,a)
  have begun : ((if w.cursor.started then (w,Turned.going) else walkerStart conf late tree w).1.cursor,
      (if w.cursor.started then (w,Turned.going) else walkerStart conf late tree w).2) =
      if w.cursor.started then (w.cursor,Turned.going) else walkStart conf tree w.cursor := by
    split
    · rfl
    · exact startCursor conf late tree w
  simp only [walkerStep,walkStep]
  rw [← begun]
  generalize (if w.cursor.started then (w,Turned.going) else walkerStart conf late tree w) = opened
  obtain ⟨w',t⟩ := opened
  cases t with
  | ended rc => exact ⟨rfl,rfl,rfl,rfl⟩
  | _ =>
    simp only
    rw [sliced w']
    generalize (walkerLoop conf late visit).slice _ _ _ _ = cut
    obtain ⟨result,out,turns⟩ := cut
    cases result <;> exact ⟨rfl,rfl,rfl,rfl⟩

end steps

section jobs
variable {α : Type} {late : Cursor → Bool} {visit : Visitor α}

def WalkerOutput.Whole : WalkerOutput → Prop
  | .visited x => x.Whole
  | .returned rc frames handles => handles = frames ∧ (rc ≠ .again → frames = 0)

theorem jobWhole {job : WalkerJob α} (whole : job.walker.Whole job.conf.root) (e : WalkerEvent) :
    (job.step late visit e).1.walker.Whole (job.step late visit e).1.conf.root ∧
      ∀ o ∈ (job.step late visit e).2, o.Whole := by
  cases e with
  | call limit start clock =>
    obtain ⟨next,closed,good⟩ := @stepWhole α late visit job.conf job.walker whole job.tree limit start clock job.state
    refine ⟨next,fun o member => ?_⟩
    rcases List.mem_append.mp member with seen | last
    · obtain ⟨x,visited,rfl⟩ := List.mem_map.mp seen
      exact good x visited
    · rw [List.mem_singleton.mp last]
      exact ⟨next.handles,fun final => by rw [closed final]; rfl⟩
  | close => exact ⟨wholeCloseAll whole _,by simp [WalkerJob.step]⟩
  | reset conf tree =>
    rw [WalkerJob.step]
    split
    · rename_i empty
      have empty : job.walker.cursor.frames = [] := List.isEmpty_iff.mp empty
      have names := prefixesLength whole.prefixes
      rw [empty] at names
      have none_ : job.walker.names = [] := List.length_eq_zero_iff.mp names.symm
      refine ⟨⟨⟨whole.valid.fits,whole.valid.nested,fun _ => empty⟩,whole.handles,whole.prefixes,?_⟩,by simp⟩
      simp [none_]
    · exact ⟨whole,by simp⟩

end jobs

/- Whatever is walked and however it is cut: the visitor gets the root, the names of the
open directories and the entry, with a zero byte behind them in the buffer; there are as
many handles as frames, and none after a call that does not answer NGX_AGAIN. -/
theorem cursorWhole {α : Type} (late : Cursor → Bool) (visit : Visitor α) (conf : WalkConf) (tree : Tree) (a : α)
    (events : List WalkerEvent) :
    let outputs := (walkerMachine late visit).outputs ⟨conf,tree,.fresh,a⟩ events
    let walker := ((walkerMachine late visit).after ⟨conf,tree,.fresh,a⟩ events).walker
    (∀ x, .visited x ∈ outputs → x.opened.head? = some x.root ∧
      x.path = [slash].intercalate (x.opened ++ [x.entry]) ∧ x.buffer.take x.path.length = x.path ∧
      x.buffer[x.path.length]? = some 0 ∧ x.opened.length = x.frames ∧ x.handles = x.frames) ∧
    (∀ rc (frames : Nat) (handles : Int), .returned rc frames handles ∈ outputs → handles = frames ∧ (rc ≠ .again → frames = 0)) ∧
    walker.handles = walker.cursor.frames.length := by
  intro outputs walker
  have start : Walker.fresh.Whole conf.root := ⟨⟨by simp [Walker.fresh],by simp [Walker.fresh],fun _ => rfl⟩,rfl,.nil,
    by simp [Walker.fresh]⟩
  have tracked := (walkerMachine late visit).tracks (s := ⟨conf,tree,.fresh,a⟩)
    (P := fun out job => job.walker.Whole job.conf.root ∧ ∀ o ∈ out, o.Whole) ⟨start,by simp⟩
    (fun past job e ⟨whole,good⟩ => by
      obtain ⟨next,more⟩ := @jobWhole α late visit job whole e
      refine ⟨next,fun o member => ?_⟩
      rcases List.mem_append.mp member with before | now
      · exact good o before
      · exact more o now) events
  obtain ⟨whole,good⟩ := tracked
  exact ⟨fun x member => good _ member,fun rc frames handles member => good _ member,whole.handles⟩

end CachePurge
