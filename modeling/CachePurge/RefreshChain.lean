import CachePurge.KeyReader
import CachePurge.RefreshPlaces
import CachePurge.RefreshSelectors

/-! A client that repeats REFRESH with the cursor of the page before, until a page
is complete. -/
namespace CachePurge
open General

def cursorHeader : Bytes := [88,45,67,97,99,104,101,45,80,117,114,103,101,45,67,117,114,115,111,114]

def isCursorHeader (key : Bytes) : Bool :=
  key.length == cursorHeader.length && caseEqual key.length key cursorHeader

/- The header loop of ngx_http_cache_refresh_start: none is an invalid cursor. -/
def cursorLoop : Bool → Bytes → List (Bytes × Bytes) → Option Bytes
  | _, after, [] => some after
  | found, after, (key,value) :: rest =>
    if isCursorHeader key then
      if found || value.length ≠ 32 || !value.all fun c => (hextoi c).isSome then none
      else cursorLoop true (lowered value) rest
    else cursorLoop found after rest

def refreshCursor (headers : List (Bytes × Bytes)) : Option Bytes := cursorLoop false (List.replicate 32 48) headers

/- 32 digits as nginx writes them. -/
structure CursorText (cursor : Bytes) : Prop where
  length : cursor.length = 32
  digits : ∀ c ∈ cursor, (hextoi c).isSome = true ∧ tolower c = c

section cursor

def lowerDigits (cursor : Bytes) : Bool := cursor.length == 32 && cursor.all fun c => (hextoi c).isSome && tolower c == c

theorem digitsText {cursor : Bytes} (spelled : lowerDigits cursor = true) : CursorText cursor := by
  simp only [lowerDigits,Bool.and_eq_true,beq_iff_eq,List.all_eq_true] at spelled
  exact ⟨spelled.1,spelled.2⟩

theorem digitLowered (c : UInt8) (digit : (hextoi c).isSome = true) :
    (hextoi (tolower c)).isSome = true ∧ tolower (tolower c) = tolower c := by
  have all : ∀ n : Fin 256, (hextoi (UInt8.ofNat n)).isSome = true →
      (hextoi (tolower (UInt8.ofNat n))).isSome = true ∧
        tolower (tolower (UInt8.ofNat n)) = tolower (UInt8.ofNat n) := by decide +kernel
  have this := all ⟨c.toNat,c.toNat_lt⟩
  simp only [UInt8.ofNat_toNat] at this
  exact this digit

theorem cursorLoopText {found : Bool} {after cursor : Bytes} {headers : List (Bytes × Bytes)} (text : CursorText after)
    (reads : cursorLoop found after headers = some cursor) : CursorText cursor := by
  induction headers generalizing found after with
  | nil =>
    cases Option.some.inj reads
    exact text
  | cons header rest ih =>
    obtain ⟨key,value⟩ := header
    simp only [cursorLoop] at reads
    split at reads
    · split at reads
      · contradiction
      · rename_i valid
        simp only [ne_eq,Bool.or_eq_true,decide_eq_true_eq,not_or,Decidable.not_not,Bool.not_eq_true',
          Bool.not_eq_false] at valid
        refine ih ⟨by simpa using valid.1.2,fun c member => ?_⟩ reads
        obtain ⟨d,inside,rfl⟩ := List.mem_map.mp member
        exact digitLowered d (List.all_eq_true.mp valid.2 d inside)
    · exact ih text reads

theorem cursorText {headers : List (Bytes × Bytes)} {cursor : Bytes} (reads : refreshCursor headers = some cursor) :
    CursorText cursor := by
  refine cursorLoopText ⟨by simp,fun c member => ?_⟩ reads
  rw [List.eq_of_mem_replicate member]
  decide

theorem cursorOnly {found : Bool} {after : Bytes} (headers : List (Bytes × Bytes)) :
    cursorLoop found after headers = cursorLoop found after (headers.filter fun header => isCursorHeader header.1) := by
  induction headers generalizing found after with
  | nil => rfl
  | cons header rest ih =>
    obtain ⟨key,value⟩ := header
    by_cases cursor : isCursorHeader key = true
    · simp only [List.filter_cons,cursor,if_true,cursorLoop,ih]
    · simp only [List.filter_cons,cursor,cursorLoop,ih]
      rfl

theorem cursorBack {headers : List (Bytes × Bytes)} {key cursor : Bytes} (text : CursorText cursor)
    (once : (headers.filter fun header => isCursorHeader header.1) = [(key,cursor)]) :
    refreshCursor headers = some cursor := by
  have named : isCursorHeader key = true := by
    have member : (key,cursor) ∈ headers.filter fun header => isCursorHeader header.1 := by simp [once]
    exact (List.mem_filter.mp member).2
  have digits : (cursor.all fun c => (hextoi c).isSome) = true :=
    List.all_eq_true.mpr fun c member => (text.digits c member).1
  have same : lowered cursor = cursor := by
    have each := List.map_congr_left fun c member => (text.digits c member).2
    rwa [List.map_id'] at each
  rw [refreshCursor,cursorOnly,once]
  simp [cursorLoop,named,text.length,digits,same]

end cursor

/- A run from the start of a page with this cursor on, on a cache whose admitted files have
these names. The walk of the page answers in slices, its threads, timers and probes come as
they may, and so do the other pages and processes. -/
structure PageRun (config : Config) (late : Bool) (members : Finset Bytes) (start : Bytes) (s s₁ : Pages)
    (events : List RefreshEvent) : Prop where
  reached : ∃ maxSize paths epochs front, s = (refreshMachine config late).after (refreshInit maxSize paths epochs) front
  started : ∃ pid conf deadline, s₁ = (s.step config late (.start pid conf deadline start)).1
  opened : s₁.opened = s.opened + 1
  scans : ∃ files : RefreshFiles, files.tree.listing.Proper ∧ files.Holds members ∧
    ∀ e ∈ events, e.page = s.opened → ∀ answer ∈ e.answer, ∃ starts clocks calls,
      answer = (refreshSlices files start starts clocks calls).scanned

def Refreshed (config : Config) (late : Bool) (members : Finset Bytes) (start : Bytes) (body : RefreshBody) : Prop :=
  ∃ s s₁ events, PageRun config late members start s s₁ events ∧
    .replied s.opened (.page body) ∈ (refreshMachine config late).outputs s₁ events

structure RefreshAnswer where
  body : RefreshBody
  probes : List Bytes
  timely : Bool

def PageAnswered (config : Config) (late : Bool) (members : Finset Bytes) (start : Bytes) (answer : RefreshAnswer) : Prop :=
  let m := refreshMachine config late
  ∃ s s₁ events last, PageRun config late members start s s₁ (events ++ [last]) ∧
    .replied s.opened (.page answer.body) ∈ (m.step (m.after s₁ events) last).2 ∧
    answer.probes = sentBy s.opened (m.outputs s₁ (events ++ [last])) ∧
    answer.timely = m.along (Pages.promptly s.opened) s₁ (events ++ [last])

def RefreshBody.processed (body : RefreshBody) : List RefreshRow :=
  body.results.take (body.results.length - body.undispatched)

def RefreshBody.handled (body : RefreshBody) : List RefreshRow := body.results.filter RefreshRow.touched

inductive Continued (served : Bytes → RefreshAnswer → Prop) : List (Bytes × Bytes) → List RefreshAnswer → Prop where
  | last {headers start answer} (reads : refreshCursor headers = some start) (page : served start answer)
      (complete : answer.body.complete = true) : Continued served headers [answer]
  | more {headers start answer key next rest} (reads : refreshCursor headers = some start) (page : served start answer)
      (incomplete : answer.body.complete = false)
      (repeats : (next.filter fun header => isCursorHeader header.1) = [(key,answer.body.nextCursor)])
      (later : Continued served next rest) : Continued served headers (answer :: rest)

theorem continuedMore {served : Bytes → RefreshAnswer → Prop} {headers : List (Bytes × Bytes)} {start : Bytes}
    {answer : RefreshAnswer} {rest : List RefreshAnswer} (reads : refreshCursor headers = some start)
    (page : served start answer) (incomplete : answer.body.complete = false)
    (later : Continued served [(cursorHeader,answer.body.nextCursor)] rest) : Continued served headers (answer :: rest) :=
  @Continued.more served headers start answer cursorHeader _ rest reads page incomplete (by
    rw [List.filter_singleton]
    rfl) later

section chain
variable {config : Config} {late : Bool} {members : Finset Bytes} {start : Bytes} {body : RefreshBody}
  {answer : RefreshAnswer}

theorem answeredReports (page : PageAnswered config late members start answer) :
    ∃ x : Expected, x.start = start ∧ x.names = (above members start).take refreshBatch ∧
      (x.more = true ↔ refreshBatch < (above members start).length) ∧
      Reported x (answer.timely = true) answer.probes answer.body := by
  obtain ⟨s,s₁,events,last,run,replied,probes,timely⟩ := page
  obtain ⟨maxSize,paths,epochs,front,rfl⟩ := run.reached
  obtain ⟨pid,conf,deadline,rfl⟩ := run.started
  obtain ⟨files,proper,holds,answers⟩ := run.scans
  refine ⟨⟨start,(above members start).take refreshBatch,decide (refreshBatch < (above members start).length)⟩,rfl,rfl,
    by simp,?_⟩
  have numbered := numberedRun config late maxSize paths epochs front
  have begun := placedStart (x := ⟨start,(above members start).take refreshBatch,
    decide (refreshBatch < (above members start).length)⟩) numbered run.opened
  rw [probes]
  refine placedRun begun (by rw [run.opened]; exact Nat.lt_succ_self _) (fun e member own answer said ok => ?_)
    (fun time => ?_) replied
  · obtain ⟨starts,clocks,calls,rfl⟩ := answers e member own answer said
    obtain ⟨names,more⟩ := @slicesScanned _ start proper members holds starts clocks calls ok
    exact ⟨names,by rw [Bool.eq_iff_iff,decide_eq_true_eq]; exact more⟩
  · rw [timely,Machine.alongAppend,Bool.and_eq_true] at time
    exact (Bool.and_eq_true_iff.mp time.2).1

theorem servedAnswered (served : Refreshed config late members start body) :
    ∃ answer, PageAnswered config late members start answer ∧ answer.body = body := by
  obtain ⟨s,s₁,events,run,replied⟩ := served
  obtain ⟨front,last,rest,rfl,said⟩ := Machine.emittedAt _ replied
  obtain ⟨files,proper,holds,answers⟩ := run.scans
  have shorter : PageRun config late members start s s₁ (front ++ [last]) :=
    ⟨run.reached,run.started,run.opened,files,proper,holds,fun e member => answers e (by
      rcases List.mem_append.mp member with before | now
      · exact List.mem_append_left _ before
      · exact List.mem_append_right _ (List.mem_singleton.mp now ▸ List.mem_cons_self))⟩
  exact ⟨⟨body,_,_⟩,⟨s,s₁,front,last,shorter,said,rfl,rfl⟩,rfl⟩

theorem answeredServed (page : PageAnswered config late members start answer) :
    Refreshed config late members start answer.body := by
  obtain ⟨s,s₁,events,last,run,replied,_⟩ := page
  refine ⟨s,s₁,events ++ [last],run,?_⟩
  rw [Machine.outputsAppend,Machine.outputsCons,Machine.outputsNil,List.append_nil]
  exact List.mem_append_right _ replied

theorem refreshedReports (served : Refreshed config late members start body) :
    ∃ x timely sent, x.start = start ∧ x.names = (above members start).take refreshBatch ∧
      (x.more = true ↔ refreshBatch < (above members start).length) ∧ Reported x timely sent body := by
  obtain ⟨answer,page,rfl⟩ := servedAnswered served
  obtain ⟨x,from_,names,more,reported⟩ := answeredReports page
  exact ⟨x,_,_,from_,names,more,reported⟩

theorem refreshedPage (served : Refreshed config late members start body) :
    (body.scanComplete = false → body.nextCursor = start ∧ body.results = []) ∧
    (body.complete = true ↔ body.scanComplete = true ∧ above members body.nextCursor = []) ∧
    above members start = body.processed.map RefreshRow.hash ++ above members body.nextCursor ∧
    (body.nextCursor = start ∨ body.nextCursor ∈ members) ∧ ∀ row ∈ body.processed, row.result ≠ .pending := by
  obtain ⟨x,_,_,rfl,names,more,reported⟩ := refreshedReports served
  cases scanned : body.scanComplete with
  | false =>
    obtain ⟨none,incomplete,same,_⟩ := reported.unfinished scanned
    simp [RefreshBody.processed,none,incomplete,same]
  | true =>
    obtain ⟨position,within,rows,undispatched,next,complete,final,_⟩ := reported.finished scanned
    have count : body.results.length = x.names.length := by rw [← rows,List.length_map]
    have passed : body.results.length - body.undispatched = position := by omega
    have processed : body.processed.map RefreshRow.hash = x.names.take position := by
      rw [RefreshBody.processed,passed,List.map_take,rows]
    have front : x.names.take position <+: above members x.start :=
      (List.take_prefix _ _).trans (names ▸ List.take_prefix _ _)
    have split := aboveAfter front
    rw [← next] at split
    rw [processed]
    refine ⟨by simp,?_,split,?_,?_⟩
    · have lengths := congrArg List.length split
      rw [List.length_append,List.length_take] at lengths
      have batch := congrArg List.length names
      rw [List.length_take] at batch
      rw [complete,← List.length_eq_zero_iff,← Bool.not_eq_true,more]
      simp only [true_and]
      omega
    · rw [next]
      cases last : (x.names.take position).getLast? with
      | none => exact .inl (by simp [cursorAfter,last])
      | some name =>
        have inside := front.subset (List.mem_of_getLast? last)
        exact .inr (by simpa [cursorAfter,last] using (aboveMember.mp inside).1)
    · rw [RefreshBody.processed,passed]
      exact final

def RefreshAnswer.blankFrom (answer : RefreshAnswer) (n : Nat) : Prop :=
  answer.probes.Sublist ((answer.body.results.take n).map RefreshRow.hash) ∧
    ∀ row ∈ answer.body.results.drop n, row.touched = false

theorem answeredRows (page : PageAnswered config late members start answer) :
    ∃ n, answer.blankFrom n ∧ answer.body.processed.length ≤ n ∧ n ≤ answer.body.processed.length + 1 ∧
      (answer.timely = true → n = answer.body.processed.length) := by
  obtain ⟨x,rfl,names,_,reported⟩ := answeredReports page
  unfold RefreshAnswer.blankFrom
  cases scanned : answer.body.scanComplete with
  | false =>
    obtain ⟨none_,_,_,unsent⟩ := reported.unfinished scanned
    exact ⟨0,by simp [unsent,none_],by simp [RefreshBody.processed,none_],Nat.zero_le _,
      fun _ => by simp [RefreshBody.processed,none_]⟩
  | true =>
    obtain ⟨position,within,rows,undispatched,next,complete,final,reached,far,probes,blank⟩ := reported.finished scanned
    have count : answer.body.results.length = x.names.length := by rw [← rows,List.length_map]
    have size : answer.body.processed.length = position := by
      rw [RefreshBody.processed,List.length_take]
      omega
    rw [← rows,← List.map_take] at probes
    refine ⟨reached,⟨probes,blank⟩,by omega,by omega,fun time => ?_⟩
    exact (far.resolve_right fun cut => cut.2 time).trans size.symm

theorem timelyRows (page : PageAnswered config late members start answer) (timely : answer.timely = true) :
    answer.body.handled = answer.body.processed ∧
      answer.probes.Sublist (answer.body.processed.map RefreshRow.hash) := by
  obtain ⟨n,⟨probes,blank⟩,_,_,exact_⟩ := answeredRows page
  have front : answer.body.results.take n = answer.body.processed := by
    rw [exact_ timely,RefreshBody.processed,List.length_take,← List.take_eq_take_min]
  refine ⟨?_,front ▸ probes⟩
  have final := (refreshedPage (answeredServed page)).2.2.2.2
  have said : answer.body.processed.filter RefreshRow.touched = answer.body.processed :=
    List.filter_eq_self.mpr fun row member => by simp [RefreshRow.touched,final row member]
  have left_ : (answer.body.results.drop n).filter RefreshRow.touched = [] :=
    List.filter_eq_nil_iff.mpr fun row member => by simp [blank row member]
  rw [RefreshBody.handled]
  conv_lhs => rw [← List.take_append_drop n answer.body.results]
  rw [List.filter_append,front,said,left_,List.append_nil]

/- Pages from cursor to cursor pass every file behind the first cursor once, in the order of
the names; a page whose scan did not finish leaves its cursor where it was; and a page is
complete when nothing is left behind its cursor. If they are all timely, no other row says
anything, and no file is probed twice. -/
theorem refreshCovers (config : Config) (late : Bool) (members : Finset Bytes)
    (names : ∀ name ∈ members, CursorText name) :
    (∀ start answer, PageAnswered config late members start answer →
      (answer.body.scanComplete = false → answer.body.nextCursor = start) ∧
      (answer.body.complete = true ↔ answer.body.scanComplete = true ∧ ∀ name ∈ members, ¬ answer.body.nextCursor < name) ∧
      (∀ row ∈ answer.body.processed, row.result ≠ .pending) ∧
      ∃ n, answer.blankFrom n ∧ answer.body.processed.length ≤ n ∧ n ≤ answer.body.processed.length + 1 ∧
        (answer.timely = true → n = answer.body.processed.length)) ∧
    ∀ headers answers start, refreshCursor headers = some start →
      Continued (PageAnswered config late members) headers answers →
      let passed := (members.filter (start < ·)).sort (· ≤ ·)
      (answers.flatMap fun answer => answer.body.processed.map RefreshRow.hash) = passed ∧
      ((∀ answer ∈ answers, answer.timely = true) →
        (answers.flatMap fun answer => answer.body.handled.map RefreshRow.hash) = passed ∧
        (answers.flatMap RefreshAnswer.probes).Sublist passed) := by
  constructor
  · intro start answer page
    obtain ⟨unfinished,complete,_,_,final⟩ := refreshedPage (answeredServed page)
    refine ⟨fun scan => (unfinished scan).1,?_,final,answeredRows page⟩
    rw [complete]
    refine and_congr_right fun _ => ?_
    rw [List.eq_nil_iff_forall_not_mem]
    simp [aboveMember]
  · intro headers answers start reads chain
    induction chain generalizing start with
    | @last _ _ answer reads' page complete =>
      cases Option.some.inj (reads'.symm.trans reads)
      obtain ⟨_,ends,split,_,_⟩ := refreshedPage (answeredServed page)
      rw [(ends.mp complete).2,List.append_nil] at split
      simp only [List.flatMap_cons,List.flatMap_nil,List.append_nil]
      refine ⟨split.symm,fun timely => ?_⟩
      obtain ⟨rows,probes⟩ := timelyRows page (timely answer List.mem_cons_self)
      rw [rows]
      exact ⟨split.symm,by rw [← split] at probes; exact probes⟩
    | @more _ _ answer _ _ rest reads' page incomplete repeats later ih =>
      cases Option.some.inj (reads'.symm.trans reads)
      obtain ⟨_,_,split,from_,_⟩ := refreshedPage (answeredServed page)
      have text := from_.elim (fun same => same ▸ cursorText reads') (names _)
      obtain ⟨others,quiet⟩ := ih _ (cursorBack text repeats)
      -- What is left behind the cursor of the page is for the pages after it.
      change above members _ = _ ++ (members.filter (answer.body.nextCursor < ·)).sort (· ≤ ·) at split
      change _ = above members _ ∧ (_ → _ = above members _ ∧ List.Sublist _ (above members _))
      simp only [List.flatMap_cons]
      refine ⟨by rw [others]; exact split.symm,fun timely => ?_⟩
      obtain ⟨rows,probes⟩ := timelyRows page (timely answer List.mem_cons_self)
      obtain ⟨handled,sent⟩ := quiet fun other inside => timely other (List.mem_cons_of_mem _ inside)
      rw [rows,handled,split]
      exact ⟨rfl,probes.append sent⟩

end chain

section site

def sitePages : Config := ⟨posix,fun _ => siteName⟩

def flatListing (names : List Bytes) : Listing :=
  names.foldr (fun name rest => .entry name plainEntry plainFile .done rest) .done

def siteDirectory (native : Native) (filter : Bytes) (names : List Bytes) (content : Bytes → Bytes) : RefreshFiles :=
  {siteRefresh filter [] with
    native
    tree := {siteTree with listing := flatListing names}
    seen := fun path => (generationInit siteEpoch,content (fileHash path))}

def siteReads (native : Native) (filter content name : Bytes) : Bool :=
  match readKey native wellRead ([47,99] ++ slash :: name) content with
  | .error _ => false
  | .ok entry => match generationCurrent siteName (generationInit siteEpoch) entry.key with
    | (.ok,some logical) => refreshAccepts filter logical
    | _ => false

def siteReadable (native : Native) (filter : Bytes) (names : List Bytes) (content : Bytes → Bytes) : Bool :=
  names.all fun name => name.length == 32 && name.all isHex && siteReads native filter (content name) name

section directory
variable {native : Native} {filter : Bytes} {names : List Bytes} {content : Bytes → Bytes}

theorem flatNames : (flatListing names).names = names := by
  induction names with
  | nil => rfl
  | cons name rest ih => exact congrArg (name :: ·) ih

theorem flatProper (distinct : names.Nodup) (plain : ∀ name ∈ names, slash ∉ name) : (flatListing names).Proper := by
  induction names with
  | nil => trivial
  | cons name rest ih =>
    obtain ⟨new,distinct⟩ := List.nodup_cons.mp distinct
    exact ⟨plain name List.mem_cons_self,by rw [← flatListing,flatNames]; exact new,trivial,
      ih distinct fun other inside => plain other (List.mem_cons_of_mem _ inside)⟩

theorem flatVisits {skip : Bytes → Bool} {dir : Bytes} (dotless : ∀ name ∈ names, dotName name = false) :
    (flatListing names).visits skip dir = names.map fun name => (dir ++ slash :: name,siteVisit) := by
  induction names with
  | nil => rfl
  | cons name rest ih =>
    have later := ih fun other inside => dotless other (List.mem_cons_of_mem _ inside)
    rw [flatListing] at later ⊢
    simp only [List.foldr_cons,Listing.visits,dotless name List.mem_cons_self,later]
    rfl

theorem siteAdmitted (listed : siteReadable native filter names content = true) {name : Bytes} (member : name ∈ names) :
    Admits (siteDirectory native filter names content) ([47,99] ++ slash :: name) siteVisit ∧
      fileHash ([47,99] ++ slash :: name) = name ∧ ∀ c ∈ name, isHex c = true := by
  have all := List.all_eq_true.mp listed name member
  simp only [Bool.and_eq_true,beq_iff_eq] at all
  obtain ⟨⟨length,hex⟩,reads⟩ := all
  have hash : fileHash ([47,99] ++ slash :: name) = name := by simp [fileHash,length]
  refine ⟨⟨?_,rfl,?_,?_⟩,hash,List.all_eq_true.mp hex⟩
  · simp [isCacheFile,siteDirectory,siteRefresh,length,hex,posix]
  · simp [refreshCanonical,siteDirectory,siteRefresh,levelsMatch,CachePath.len,length]
  · unfold siteReads at reads
    split at reads
    · contradiction
    rename_i entry read
    split at reads
    · rename_i logical current
      refine ⟨entry,logical,?_,current,reads⟩
      change readKey native wellRead _ (content (fileHash ([47,99] ++ slash :: name))) = _
      rw [hash]
      exact read
    · contradiction

def siteBefore : Pages := (refreshMachine sitePages false).after (refreshInit 4 [(1,[47,99])] fun _ => siteEpoch)
  [.worker (.start 7 0 false [0])]

def siteOpened (start : Bytes) : Pages := (siteBefore.step sitePages false (.start 7 ⟨0,[],[47,99],[],[]⟩ 1000 start)).1

def scanWhole (files : RefreshFiles) (start : Bytes) : ScanAnswer :=
  (refreshSlices files start (fun _ => 0) (fun _ _ => 0) 4).scanned

def timerAt (scanned : ScanAnswer) (now : UInt64) : RefreshEvent := .timer 0
  ⟨now,fun _ => true,⟨true,true,false,false,false⟩,false,scanned,⟨true,true,true⟩,[],
    ⟨true,true,some 5,[]⟩,true⟩

def siteEvents (scanned : ScanAnswer) (calls : List (UInt64 ⊕ Nat × Nat)) : List RefreshEvent :=
  calls.map fun
    | .inl now => timerAt scanned now
    | .inr (probe,status) => .complete 0 probe status

theorem directoryRun (distinct : names.Nodup) (listed : siteReadable native filter names content = true)
    {members : Finset Bytes} (same : ∀ name, name ∈ members ↔ name ∈ names) {start : Bytes}
    {calls : List (UInt64 ⊕ Nat × Nat)} : PageRun sitePages false members start siteBefore (siteOpened start)
      (siteEvents (scanWhole (siteDirectory native filter names content) start) calls) := by
  have digits {name : Bytes} (member : name ∈ names) {c : UInt8} (inside : c ∈ name) : isHex c = true :=
    (siteAdmitted listed member).2.2 c inside
  have dotless (name : Bytes) (member : name ∈ names) : dotName name = false := by
    rw [Bool.eq_false_iff]
    intro dot
    have first : (46 : UInt8) ∈ name := by
      simp only [dotName,Bool.or_eq_true,beq_iff_eq] at dot
      rcases dot with rfl | rfl <;> simp
    exact absurd (digits member first) (by decide)
  have visits : (siteDirectory native filter names content).visits =
      names.map fun name => ([47,99] ++ slash :: name,siteVisit) := flatVisits dotless
  refine ⟨⟨4,[(1,[47,99])],fun _ => siteEpoch,[.worker (.start 7 0 false [0])],rfl⟩,
    ⟨7,⟨0,[],[47,99],[],[]⟩,1000,rfl⟩,rfl,siteDirectory native filter names content,
    flatProper distinct fun name member inside => absurd (digits member inside) (by decide),fun hash => ?_,
    fun e member _ answer said => ?_⟩
  · rw [same,visits]
    constructor
    · exact fun member => ⟨_,_,List.mem_map.mpr ⟨hash,member,rfl⟩,(siteAdmitted listed member).1,
        (siteAdmitted listed member).2.1⟩
    · rintro ⟨path,v,member,_,rfl⟩
      obtain ⟨name,inside,here⟩ := List.mem_map.mp member
      cases here
      rw [(siteAdmitted listed inside).2.1]
      exact inside
  · obtain ⟨now | ⟨probe,status⟩,_,rfl⟩ := List.mem_map.mp member
    · exact ⟨fun _ => 0,fun _ _ => 0,4,(Option.some.inj said).symm⟩
    · contradiction

def siteAnswered (scanned : ScanAnswer) (start : Bytes) (calls : List (UInt64 ⊕ Nat × Nat)) (now : UInt64)
    (answer : RefreshAnswer) : Prop :=
  let m := refreshMachine sitePages false
  let events := siteEvents scanned calls
  .replied 0 (.page answer.body) ∈ (m.step (m.after (siteOpened start) events) (timerAt scanned now)).2 ∧
    answer.probes = sentBy 0 (m.outputs (siteOpened start) (events ++ [timerAt scanned now])) ∧
    answer.timely = m.along (Pages.promptly 0) (siteOpened start) (events ++ [timerAt scanned now])

instance (scanned : ScanAnswer) (start : Bytes) (calls : List (UInt64 ⊕ Nat × Nat)) (now : UInt64)
    (answer : RefreshAnswer) : Decidable (siteAnswered scanned start calls now answer) :=
  inferInstanceAs (Decidable (_ ∧ _ ∧ _))

theorem directoryAnswered (distinct : names.Nodup) (listed : siteReadable native filter names content = true)
    {members : Finset Bytes} (same : ∀ name, name ∈ members ↔ name ∈ names) {start : Bytes}
    {calls : List (UInt64 ⊕ Nat × Nat)} {now : UInt64} {answer : RefreshAnswer}
    (answered : siteAnswered (scanWhole (siteDirectory native filter names content) start) start calls now answer) :
    PageAnswered sitePages false members start answer := by
  obtain ⟨replied,probes,timely⟩ := answered
  refine ⟨siteBefore,siteOpened start,_,_,?_,replied,probes,timely⟩
  have run := @directoryRun native filter names content distinct listed members same start (calls ++ [.inl now])
  rwa [siteEvents,List.map_append] at run

/- The visitor of the page where what the reader makes of the files is known. -/
def knownCollect (files : RefreshFiles) (names : List Bytes) (known : Bytes → EntryKey) (after : Bytes) :
    Visitor (Batch Found) := fun path v batch =>
  let hash := fileHash path
  if path = [47,99] ++ slash :: hash ∧ v = siteVisit ∧ hash ∈ names then
    (false,if hash ≤ after then batch
      else batch.add Found.hash refreshBatch ⟨hash,(known hash).key,(known hash).header⟩)
  else refreshCollect files after path v batch

theorem knownScanned (listed : siteReadable native filter names content = true) {known : Bytes → EntryKey}
    (read : ∀ name ∈ names, readKey native wellRead ([47,99] ++ slash :: name) (content name) = .ok (known name))
    (start : Bytes) : scanWhole (siteDirectory native filter names content) start =
      (walkCalls ⟨posix,[47,99],[]⟩ {siteTree with listing := flatListing names}
        (knownCollect (siteDirectory native filter names content) names known start) walkEntries (fun _ => 0)
        (fun _ _ => 0) 4 0 idleCursor .empty).scanned := by
  have same : refreshCollect (siteDirectory native filter names content) start =
      knownCollect (siteDirectory native filter names content) names known start := by
    funext path v batch
    unfold knownCollect
    dsimp only
    split
    · rename_i here
      obtain ⟨spelled,rfl,member⟩ := here
      obtain ⟨admits,_,_⟩ := siteAdmitted listed member
      rw [← spelled] at admits
      obtain ⟨entry,logical,met,current,accepts⟩ := admits.read
      have known_ := read _ member
      rw [← spelled] at known_
      cases Except.ok.inj (met.symm.trans known_)
      unfold refreshCollect refreshAdmit
      rw [admits.named,admits.unprotected,admits.canonical,met]
      simp only [Bool.not_true,Bool.or_self,Bool.false_eq_true,if_false,current,accepts,if_true]
      by_cases ahead : fileHash path ≤ start
      · simp only [ahead,if_true]
      · simp only [ahead,if_false]
    · rfl
  rw [scanWhole,refreshSlices,same]
  rfl

end directory

def siteFile : RefreshFiles := siteDirectory siteNative [47,97] [fileHash sitePath] fun _ => siteEntry siteKey

def siteBody : RefreshBody := ⟨true,true,false,0,fileHash sitePath,[⟨fileHash sitePath,304,.kept⟩]⟩

theorem siteAnswers {start : Bytes} {calls : List (UInt64 ⊕ Nat × Nat)} {now : UInt64} {answer : RefreshAnswer}
    (answered : siteAnswered (scanWhole siteFile start) start calls now answer) :
    PageAnswered sitePages false {fileHash sitePath} start answer :=
  directoryAnswered (List.nodup_singleton _) (by decide +kernel) (by simp) answered

theorem siteRefreshed : PageAnswered sitePages false {fileHash sitePath} (List.replicate 32 48)
    ⟨siteBody,[fileHash sitePath],true⟩ :=
  @siteAnswers _ [.inl 0,.inr (0,304),.inl 0] 0 _ (by decide +kernel)

def lateBody : RefreshBody :=
  ⟨true,false,true,1,List.replicate 32 48,[⟨fileHash sitePath,304,.kept⟩]⟩

theorem lateRefreshed : PageAnswered sitePages false {fileHash sitePath} (List.replicate 32 48)
    ⟨lateBody,[fileHash sitePath],false⟩ :=
  @siteAnswers _ [.inl 0,.inr (0,304)] 1000 _ (by decide +kernel)

theorem refreshRepeats : ∃ answers : List RefreshAnswer,
    Continued (PageAnswered sitePages false {fileHash sitePath}) [] answers ∧
    (answers.flatMap fun answer => answer.body.handled.map RefreshRow.hash) ≠
      (({fileHash sitePath} : Finset Bytes).filter (List.replicate 32 48 < ·)).sort (· ≤ ·) ∧
    answers.flatMap RefreshAnswer.probes = [fileHash sitePath,fileHash sitePath] ∧
    ∀ name ∈ ({fileHash sitePath} : Finset Bytes), CursorText name := by
  refine ⟨[⟨lateBody,_,_⟩,⟨siteBody,_,_⟩],continuedMore rfl lateRefreshed rfl (.last rfl siteRefreshed rfl),
    fun same => ?_,rfl,?_⟩
  · have twice := congrArg List.length same
    rw [Finset.length_sort] at twice
    have once := Finset.card_filter_le ({fileHash sitePath} : Finset Bytes) (List.replicate 32 48 < ·)
    rw [← twice,Finset.card_singleton] at once
    exact absurd once (by decide)
  · have text : CursorText (fileHash sitePath) := digitsText (by decide +kernel)
    simpa using text

def thirdKey : Bytes := generationEncode siteName siteEpoch 1 [47,97,51]

def fourthKey : Bytes := generationEncode siteName siteEpoch 1 [47,97,52]

def variedNative : Native := native64
  (fun key => if key = thirdKey then 3233225350 else if key = fourthKey then 1590923045 else siteNative.crc32 key)
  fun key => if key = thirdKey then [33,99,212,223,19,178,227,85,85,217,22,120,199,205,11,153]
    else if key = fourthKey then [28,196,130,234,7,150,19,39,88,96,191,230,154,106,44,161] else siteNative.md5 key

/- The header of a file up to its variant. -/
def storedFirst (vary key : Bytes) : Bytes :=
  let start := [((343 + key.length) % 256).toUInt8,((343 + key.length) / 256).toUInt8]
  let crc := (variedNative.crc32 key).toNat
  [[5],List.replicate 47 0,[crc.toUInt8,(crc / 256).toUInt8,(crc / 65536).toUInt8,(crc / 16777216).toUInt8,0,0],start,start,
    List.replicate 129 0,[vary.length.toUInt8],vary,List.replicate (128 - vary.length) 0].flatten

structure StoredFile where
  vary : Bytes
  variant : Bytes
  key : Bytes

def StoredFile.content (f : StoredFile) : Bytes :=
  fileWritten (storedFirst f.vary f.key ++ (f.variant ++ List.replicate 4 0)) f.key []

def StoredFile.entry (f : StoredFile) : EntryKey where
  header := {variedNative.header (storedFirst f.vary f.key) with variant := f.variant}
  key := f.key
  fileSize := 343 + f.key.length

def plainHash (key : Bytes) : Bytes := hexDump (variedNative.md5 key)

def variantBytes : List Bytes := (List.range 31).map fun n => (64 + n).toUInt8 :: List.replicate 15 0

def variants : List Bytes := variantBytes.map hexDump

def unhex : Bytes → Bytes
  | a :: b :: rest => ((hextoi a).getD 0 * 16 + (hextoi b).getD 0) :: unhex rest
  | _ => []

def variedKey (name : Bytes) : Bytes :=
  if name = plainHash thirdKey then thirdKey else if name = plainHash fourthKey then fourthKey else siteKey

def accept : Bytes := [65,99,99,101,112,116]

def variedFile (name : Bytes) : StoredFile :=
  if name = plainHash (variedKey name) then ⟨[],List.replicate 16 0,variedKey name⟩
  else ⟨accept,unhex name,variedKey name⟩

def variedContent (name : Bytes) : Bytes := (variedFile name).content

def variedOrder : List Bytes := plainHash siteKey :: variants.reverse ++ [plainHash thirdKey,plainHash fourthKey]

def variedNames : Finset Bytes := variedOrder.toFinset

def variedFirst : RefreshAnswer where
  body := ⟨true,false,true,30,plainHash thirdKey,[⟨plainHash fourthKey,304,.kept⟩,⟨plainHash thirdKey,304,.kept⟩] ++
    (variants.take 30).map fun name => ⟨name,0,.pending⟩⟩
  probes := [plainHash fourthKey,plainHash thirdKey]
  timely := true

def variedSecond : RefreshAnswer where
  body := ⟨true,true,false,0,plainHash siteKey,variants.map (fun name => ⟨name,0,.vary⟩) ++ [⟨plainHash siteKey,304,.kept⟩]⟩
  probes := [plainHash siteKey]
  timely := true

def storedWell (vary key : Bytes) : Bool :=
  let h := variedNative.header (storedFirst vary key)
  (storedFirst vary key).length == 316 && h.headerStart == 343 + key.length &&
    headerAccepted variedNative h (343 + key.length) && variedNative.crc32 key == h.crc32

theorem nativeHeader {crc32 : Bytes → UInt32} {md5 : Bytes → Bytes} {first rest : Bytes} (sized : first.length = 316) :
    (native64 crc32 md5).header (first ++ rest) =
      {(native64 crc32 md5).header first with variant := rest.take 16} := by
  have field (offset size : Nat) (within : offset + size ≤ 316) :
      ((first ++ rest).drop offset).take size = (first.drop offset).take size := by
    rw [List.drop_append_of_le_length (by omega),List.take_append_of_le_length (by rw [List.length_drop]; omega)]
  have last : (first ++ rest).drop 316 = rest := List.drop_left' sized
  simp only [native64,last]
  rw [field 0 8 (by decide),field 32 8 (by decide),field 48 4 (by decide),field 54 2 (by decide),field 56 2 (by decide),
    field 58 1 (by decide),field 59 128 (by decide),field 187 1 (by decide)]

theorem storedRead {f : StoredFile} {name : Bytes} (well : storedWell f.vary f.key = true) (full : f.variant.length = 16)
    (length : name.length = 32) (named : name = hexName (variedNative.md5 f.key) ∨
      (variedNative.header (storedFirst f.vary f.key)).varyLen ≠ 0 ∧ name = hexName f.variant) :
    readKey variedNative wellRead ([47,99] ++ slash :: name) f.content = .ok f.entry := by
  simp only [storedWell,Bool.and_eq_true,beq_iff_eq] at well
  obtain ⟨⟨⟨first,start⟩,accepted⟩,checksum⟩ := well
  have header : variedNative.header (storedFirst f.vary f.key ++ (f.variant ++ List.replicate 4 0)) = f.entry.header := by
    rw [variedNative,nativeHeader first,List.take_left' full]
    rfl
  have sized : (storedFirst f.vary f.key ++ (f.variant ++ List.replicate 4 0)).length = variedNative.headerSize := by
    simp [first,full,variedNative,native64]
  have size : f.content.length = 343 + f.key.length := by
    rw [StoredFile.content,fileWritten,List.length_append,sized]
    simp [variedNative,native64,keyMarker]
    omega
  obtain ⟨n,rest,fits⟩ := (headerAcceptedIff _ _).mp accepted
  have same : n = f.key.length := by
    rw [← rest,start]
    simp [variedNative,native64,keyMarker]
    omega
  subst same
  have hash : ([47,99] ++ slash :: name).drop (([47,99] ++ slash :: name).length - 32) = name := by simp [length]
  refine wellReadKey.trans (entryIff.mpr ⟨writtenEntry sized ?_ ?_ ?_,size.symm,?_⟩)
  · rw [header,← StoredFile.content,size]
    exact ⟨fits.version,fits.headerStart,fits.bodyStart,fits.body,fits.etag,fits.vary,fits.short⟩
  · rw [header]
    exact checksum
  · rw [header]
    refine ⟨by simp [length],?_⟩
    rw [hash]
    exact named.imp (congrArg lowered) (And.imp id (congrArg lowered))
  · rw [StoredFile.content,fileWritten,List.take_left' sized,header]

theorem variedFacts : variedOrder.Nodup ∧ (∀ key ∈ [siteKey,thirdKey,fourthKey], storedWell [] key = true) ∧
    storedWell accept siteKey = true ∧ (variedNative.header (storedFirst accept siteKey)).varyLen ≠ 0 ∧
    ∀ name ∈ variedOrder, lowerDigits name = true ∧
      (name.length == 32 && name.all isHex && match generationCurrent siteName (generationInit siteEpoch) (variedFile name).key with
        | (.ok,some logical) => refreshAccepts [47,97,star] logical
        | _ => false) = true ∧ variedKey name ∈ [siteKey,thirdKey,fourthKey] ∧
      (name = plainHash (variedKey name) → name = hexName (variedNative.md5 (variedKey name))) ∧
      (name ≠ plainHash (variedKey name) → variedKey name = siteKey ∧ (unhex name).length = 16 ∧
        name = hexName (unhex name)) := by
  decide +kernel

theorem variedDistinct : variedOrder.Nodup := variedFacts.1

theorem variedText : ∀ name ∈ variedNames, CursorText name := fun name member =>
  digitsText (variedFacts.2.2.2.2 name (List.mem_toFinset.mp member)).1

theorem variedRead (name : Bytes) (member : name ∈ variedOrder) :
    readKey variedNative wellRead ([47,99] ++ slash :: name) (variedContent name) = .ok (variedFile name).entry := by
  obtain ⟨_,plain,varied,varies,spelled⟩ := variedFacts
  obtain ⟨text,_,keyed,own,other⟩ := spelled name member
  have length := (digitsText text).length
  unfold variedContent variedFile
  split
  · rename_i here
    exact @storedRead ⟨[],List.replicate 16 0,_⟩ _ (plain _ keyed) (by simp) length (.inl (own here))
  · rename_i apart
    obtain ⟨key,full,hex⟩ := other apart
    rw [key]
    exact @storedRead ⟨accept,_,_⟩ _ varied full length (.inr ⟨varies,hex⟩)

theorem variedReadable : siteReadable variedNative [47,97,star] variedOrder variedContent = true := by
  refine List.all_eq_true.mpr fun name member => ?_
  rw [siteReads,variedRead name member]
  exact (variedFacts.2.2.2.2 name member).2.1

theorem variedListed (name : Bytes) : name ∈ variedNames ↔ name ∈ variedOrder := List.mem_toFinset

def variedScan (start : Bytes) : ScanAnswer :=
  (walkCalls ⟨posix,[47,99],[]⟩ {siteTree with listing := flatListing variedOrder}
    (knownCollect (siteDirectory variedNative [47,97,star] variedOrder variedContent) variedOrder
      (fun name => (variedFile name).entry) start)
    walkEntries (fun _ => 0) (fun _ _ => 0) 4 0 idleCursor .empty).scanned

theorem variedAnswered {start : Bytes} {calls : List (UInt64 ⊕ Nat × Nat)} {now : UInt64} {answer : RefreshAnswer}
    (answered : siteAnswered (variedScan start) start calls now answer) :
    PageAnswered sitePages false variedNames start answer := by
  rw [variedScan,← knownScanned variedReadable variedRead] at answered
  exact directoryAnswered variedDistinct variedReadable variedListed answered

theorem variedBegun : PageAnswered sitePages false variedNames (List.replicate 32 48) variedFirst :=
  @variedAnswered _ [.inl 0,.inr (0,304),.inl 0,.inl 0,.inr (1,304),.inl 0] 1000 _ (by decide +kernel)

theorem variedEnded : PageAnswered sitePages false variedNames (plainHash thirdKey) variedSecond :=
  @variedAnswered _ (List.replicate 32 (.inl 0) ++ [.inr (0,304),.inl 0]) 0 _ (by decide +kernel)

theorem variedCursor : plainHash thirdKey ∈ variedNames := (variedListed _).mpr (by simp [variedOrder])

theorem refreshCoversSite :
    [variedFirst,variedSecond].flatMap (fun answer => answer.body.handled.map RefreshRow.hash) =
      (variedNames.filter (List.replicate 32 48 < ·)).sort (· ≤ ·) ∧
    ([variedFirst,variedSecond].flatMap RefreshAnswer.probes).Sublist
      ((variedNames.filter (List.replicate 32 48 < ·)).sort (· ≤ ·)) :=
  ((refreshCovers sitePages false variedNames variedText).2 [] [variedFirst,variedSecond] _ rfl
    (continuedMore rfl variedBegun rfl (.last (cursorBack (variedText _ variedCursor) rfl) variedEnded rfl))).2
    (by simp [variedFirst,variedSecond])

end site
end CachePurge
