import CachePurge.RefreshCollect
import CachePurge.RefreshRuns

/-! Where a page stands among its entries: the entries are those of its scan, in
order, its cursor is the name of the last one it has passed, and its body says so. -/
namespace CachePurge
open General

/- The scan of a page: the cursor it starts behind, and the names it will end with. -/
structure Expected where
  start : Bytes
  names : List Bytes
  more : Bool

def Expected.meets (x : Expected) (answer : ScanAnswer) : Prop := answer.rc = .ok →
  (answer.entries.map Found.hash).insertionSort (· ≤ ·) = x.names ∧ answer.more = x.more

def RefreshJob.names (job : RefreshJob) : List Bytes := job.entries.map fun entry => entry.found.hash

/- The entry at the position is being probed, or has its answer, and has not been passed yet. -/
def RefreshJob.underway (job : RefreshJob) : Bool :=
  job.active || job.decision || job.entry.any fun entry => entry.result != .pending

def RefreshJob.reached (job : RefreshJob) : Nat := job.position + if job.underway then 1 else 0

def RefreshEvent.cuts (p : Process) (page : Page) : RefreshEvent → Bool
  | .timer _ a | .notify _ a => (page.job.expire a.now p.leaving).timedOut && page.job.underway
  | _ => false

def Pages.promptly (id : Nat) (s : Pages) (e : RefreshEvent) : Bool := s.pages.all fun page =>
  s.system.procs.all fun p => !(e.page == id && page.id == id && p.pid == page.pid && e.cuts p page)

def RefreshEntry.untouched (entry : RefreshEntry) : Prop := entry.status = 0 ∧ entry.result = .pending

structure Stands (x : Expected) (sent : List Bytes) (job : RefreshJob) : Prop where
  unscanned : job.scanned = false → job.position = 0 ∧ sent = []
  scanned : job.scanned = true → job.names = x.names ∧ job.scan.any RefreshScan.more = x.more
  after : job.after = cursorAfter x.start (x.names.take job.position)
  passed : ∀ i < job.position, ∃ entry, job.entries[i]? = some entry ∧ entry.result ≠ .pending
  posted : job.task = .posted → job.scanned = false ∧ job.scanning = true
  behind : ∀ i entry, job.reached ≤ i → job.entries[i]? = some entry → entry.untouched
  sent : sent.Sublist (x.names.take job.reached)

def RefreshRow.touched (row : RefreshRow) : Bool := row.status != 0 || row.result != .pending

/- What the body of the page says. -/
structure Reported (x : Expected) (timely : Prop) (sent : List Bytes) (body : RefreshBody) : Prop where
  unfinished : body.scanComplete = false →
    body.results = [] ∧ body.complete = false ∧ body.nextCursor = x.start ∧ sent = []
  finished : body.scanComplete = true → ∃ position, position ≤ x.names.length ∧
    body.results.map RefreshRow.hash = x.names ∧ body.undispatched = x.names.length - position ∧
    body.nextCursor = cursorAfter x.start (x.names.take position) ∧
    (body.complete = true ↔ x.more = false ∧ position = x.names.length) ∧
    (∀ row ∈ body.results.take position, row.result ≠ .pending) ∧
    ∃ reached, (reached = position ∨ reached = position + 1 ∧ ¬ timely) ∧
      sent.Sublist (x.names.take reached) ∧ ∀ row ∈ body.results.drop reached, row.touched = false

section jobs
variable {x : Expected} {sent : List Bytes} {job job' : RefreshJob}

theorem placedFresh (conf : RefreshConf) (deadline : UInt64) : Stands x [] (.fresh conf deadline x.start) :=
  ⟨fun _ => ⟨rfl,rfl⟩,by simp [RefreshJob.fresh,RefreshJob.scanned],rfl,by simp [RefreshJob.fresh],
    by simp [RefreshJob.fresh],fun _ _ _ here => by simp [RefreshJob.fresh,RefreshJob.entries] at here,List.nil_sublist _⟩

theorem reachedGrows (position : job'.position = job.position) (grows : job.underway = true → job'.underway = true) :
    job.reached ≤ job'.reached := by
  unfold RefreshJob.reached
  rw [position]
  split
  · rename_i under
    rw [if_pos (grows under)]
  · exact Nat.le_add_right _ _

theorem placedHere (placed : Stands x sent job) (scanned : job'.scanned = job.scanned) (names : job'.names = job.names)
    (more : job'.scan.any RefreshScan.more = job.scan.any RefreshScan.more) (position : job'.position = job.position)
    (after : job'.after = job.after) (others : ∀ i, i ≠ job.position → job'.entries[i]? = job.entries[i]?)
    (posted : job'.task = .posted → job.task = .posted ∧ job'.scanning = job.scanning)
    (grows : ∀ entry, job.entries[job.position]? = some entry → job.underway = true → job'.underway = true)
    (here : job'.underway = false → ∀ entry, job'.entries[job.position]? = some entry → entry.untouched) :
    Stands x sent job' := by
  have length : job'.entries.length = job.entries.length := by simpa [RefreshJob.names] using congrArg List.length names
  have beyond : job.position ≤ job'.reached := position ▸ Nat.le_add_right _ _
  -- Behind the last entry there is nothing to reach.
  have reached : job.reached ≤ job'.reached ∨ job.entries.length ≤ job.position := by
    cases there : job.entries[job.position]? with
    | some entry => exact .inl (reachedGrows position (grows entry there))
    | none => exact .inr (List.getElem?_eq_none_iff.mp there)
  refine ⟨?_,?_,?_,fun i before => ?_,fun waits => ?_,fun i entry behind there => ?_,?_⟩
  · rw [scanned,position]
    exact placed.unscanned
  · rw [scanned,names,more]
    exact placed.scanned
  · rw [after,position]
    exact placed.after
  · rw [position] at before
    rw [others i (Nat.ne_of_lt before)]
    exact placed.passed i before
  · obtain ⟨before,scanning⟩ := posted waits
    rw [scanned,scanning]
    exact placed.posted before
  · rcases eq_or_ne i job.position with rfl | other
    · refine here (Bool.eq_false_iff.mpr fun under => ?_) entry there
      rw [RefreshJob.reached,position,if_pos under] at behind
      exact absurd behind (Nat.not_succ_le_self _)
    · rcases reached with further | last
      · rw [others i other] at there
        exact placed.behind i entry (further.trans behind) there
      · have inside := (List.getElem?_eq_some_iff.mp there).1
        omega
  · rcases reached with further | last
    · exact placed.sent.trans (List.take_sublist_take_left further)
    · cases open_ : job.scanned with
      | false =>
        rw [(placed.unscanned open_).2]
        exact List.nil_sublist _
      | true =>
        have whole : x.names.length = job.entries.length := by
          rw [← (placed.scanned open_).1,RefreshJob.names,List.length_map]
        rw [List.take_of_length_le (show x.names.length ≤ job'.reached by omega)]
        exact placed.sent.trans (List.take_sublist _ _)

theorem placedLike (placed : Stands x sent job) (scanned : job'.scanned = job.scanned) (entries : job'.entries = job.entries)
    (more : job'.scan.any RefreshScan.more = job.scan.any RefreshScan.more) (position : job'.position = job.position)
    (after : job'.after = job.after) (posted : job'.task = .posted → job.task = .posted ∧ job'.scanning = job.scanning)
    (active : job'.active = job.active) (decision : job'.decision = job.decision) : Stands x sent job' := by
  have under : job'.underway = job.underway := by
    rw [RefreshJob.underway,RefreshJob.underway,active,decision,entryAt,entryAt,entries,position]
  refine placedHere placed scanned (by rw [RefreshJob.names,entries]; rfl) more position after
    (fun i _ => by rw [entries]) posted (fun _ _ => under.trans) fun open_ entry there => ?_
  rw [entries] at there
  refine placed.behind _ entry ?_ there
  simp [RefreshJob.reached,under.symm.trans open_]

theorem placedSame (placed : Stands x sent job) (scan : job'.scan = job.scan) (position : job'.position = job.position)
    (after : job'.after = job.after) (posted : job'.task = .posted → job.task = .posted ∧ job'.scanning = job.scanning)
    (active : job'.active = job.active) (decision : job'.decision = job.decision) : Stands x sent job' :=
  placedLike placed (by unfold RefreshJob.scanned; rw [scan]) (by unfold RefreshJob.entries; rw [scan]) (by rw [scan])
    position after posted active decision

theorem placedWait (placed : Stands x sent job) : Stands x sent job.wait :=
  placedSame placed rfl rfl rfl (fun posted => ⟨posted,rfl⟩) rfl rfl

theorem placedCancel (placed : Stands x sent job) :
    Stands x sent {job with scan := job.scan.map fun scan => {scan with cancelled := true}} := by
  refine placedLike placed ?_ ?_ ?_ rfl rfl (fun posted => ⟨posted,rfl⟩) rfl rfl
  · unfold RefreshJob.scanned
    cases job.scan <;> rfl
  · unfold RefreshJob.entries
    cases job.scan <;> rfl
  · cases job.scan <;> rfl

theorem placedExpire (placed : Stands x sent job) (now : UInt64) (leaving : Bool) : Stands x sent (job.expire now leaving) := by
  unfold RefreshJob.expire
  split
  · exact placedSame (placedCancel placed) rfl rfl rfl (fun posted => ⟨posted,rfl⟩) rfl rfl
  · exact placed

theorem expireUnderway (job : RefreshJob) (now : UInt64) (leaving : Bool) : (job.expire now leaving).underway = job.underway := by
  unfold RefreshJob.expire
  split
  · rw [RefreshJob.underway,RefreshJob.underway,entryAt,entryAt]
    unfold RefreshJob.entries
    cases job.scan <;> rfl
  · rfl

theorem recordNames (f : RefreshEntry → RefreshEntry) (found : ∀ entry, (f entry).found = entry.found) :
    (job.record f).names = job.names := by
  unfold RefreshJob.names
  rw [recordEntries]
  refine List.ext_getElem? fun i => ?_
  rw [List.getElem?_map,List.getElem?_map,List.getElem?_modify]
  cases job.entries[i]? with
  | none => rfl
  | some entry =>
    simp only [Option.map_eq_map,Option.map_some]
    split <;> simp [found]

theorem placedRow (placed : Stands x sent job) (f : RefreshEntry → RefreshEntry)
    (found : ∀ entry, (f entry).found = entry.found) (same : job'.scan = (job.record f).scan)
    (position : job'.position = job.position) (after : job'.after = job.after)
    (posted : job'.task = .posted → job.task = .posted ∧ job'.scanning = job.scanning)
    (under : ∀ entry, job.entries[job.position]? = some entry → job'.underway = true) : Stands x sent job' := by
  have rows : job'.entries = (job.record f).entries := congrArg (fun scan => (scan.map RefreshScan.entries).getD []) same
  have entries : job'.entries = job.entries.modify job.position f := rows.trans (recordEntries f)
  have scanned : job'.scanned = job.scanned := (congrArg (Option.any RefreshScan.complete) same).trans (recordScanned f)
  have names : job'.names = job.names := (congrArg (List.map _) rows).trans (recordNames f found)
  have more : job'.scan.any RefreshScan.more = job.scan.any RefreshScan.more := by
    rw [same,RefreshJob.record]
    cases job.scan <;> rfl
  refine placedHere placed scanned names more position after (fun i other => ?_) posted (fun entry here _ => under entry here)
    fun open_ entry there => ?_
  · rw [entries,List.getElem?_modify_ne _ _ (Ne.symm other)]
  · rw [entries,List.getElem?_modify_eq] at there
    obtain ⟨old,here,_⟩ := Option.map_eq_some_iff.mp there
    rw [under old here] at open_
    contradiction

theorem resultUnderway {result : RefreshResult} (final : result ≠ .pending) {entry : RefreshEntry}
    (here : job.entries[job.position]? = some entry) (same : job'.scan = (job.result result).scan)
    (position : job'.position = job.position) : job'.underway = true := by
  have rows : job'.entries = (job.result result).entries := congrArg (fun scan => (scan.map RefreshScan.entries).getD []) same
  have there : job'.entry = some {entry with result := result} := by
    rw [entryAt,rows,position,RefreshJob.result,recordEntries,List.getElem?_modify_eq,here]
    rfl
  simp [RefreshJob.underway,there,final]

theorem placedResult (placed : Stands x sent job) {result : RefreshResult} (final : result ≠ .pending) (decision : Bool) :
    Stands x sent {job.result result with decision := decision} :=
  placedRow placed (fun entry => {entry with result := result}) (fun _ => rfl) rfl rfl rfl (fun posted => ⟨posted,rfl⟩)
    fun _ here => resultUnderway final here rfl rfl

theorem placedDispatch (placed : Stands x sent job) (idle : job.active = false) (undecided : job.decision = false)
    {entry : RefreshEntry} (here : job.entries[job.position]? = some entry) (pending : entry.result = .pending)
    (scanned : job.scanned = true) (scan : job'.scan = job.scan) (position : job'.position = job.position)
    (after : job'.after = job.after) (posted : job'.task = .posted → job.task = .posted ∧ job'.scanning = job.scanning)
    (active : job'.active = true) : Stands x (sent ++ [entry.found.hash]) job' := by
  have rows : job'.entries = job.entries := congrArg (fun scan => (scan.map RefreshScan.entries).getD []) scan
  have before : job.reached = job.position := by
    simp [RefreshJob.reached,RefreshJob.underway,idle,undecided,entryAt,here,pending]
  have next : job'.reached = job.position + 1 := by simp [RefreshJob.reached,RefreshJob.underway,active,position]
  have named : x.names[job.position]? = some entry.found.hash := by
    rw [← (placed.scanned scanned).1,RefreshJob.names,List.getElem?_map,here]
    rfl
  have done : job'.scanned = job.scanned := congrArg (Option.any RefreshScan.complete) scan
  refine ⟨fun unscanned => ?_,fun _ => ?_,?_,fun i passed => ?_,fun waits => ?_,fun i row behind there => ?_,?_⟩
  · rw [done,scanned] at unscanned
    contradiction
  · rw [RefreshJob.names,rows,scan]
    exact placed.scanned scanned
  · rw [after,position]
    exact placed.after
  · rw [position] at passed
    rw [rows]
    exact placed.passed i passed
  · obtain ⟨waited,scanning⟩ := posted waits
    rw [done,scanning]
    exact placed.posted waited
  · rw [rows] at there
    exact placed.behind i row (by omega) there
  · have earlier := placed.sent
    rw [before] at earlier
    rw [next,List.take_add_one,named]
    exact earlier.append (.refl _)

theorem placedAdvance (placed : Stands x sent job) {entry : RefreshEntry} {found : Found}
    (here : job.entries[job.position]? = some entry) (same : entry.found = found) (scanned : job.scanned = true)
    (final : entry.result ≠ .pending) : Stands x sent (job.advance found) := by
  subst same
  have named : x.names[job.position]? = some entry.found.hash := by
    rw [← (placed.scanned scanned).1,RefreshJob.names,List.getElem?_map,here]
    rfl
  have reached : job.reached ≤ job.position + 1 := by
    unfold RefreshJob.reached
    split <;> omega
  have further : job.position + 1 ≤ (job.advance entry.found).reached := Nat.le_add_right _ _
  refine ⟨fun unscanned => ?_,placed.scanned,?_,fun i before => ?_,placed.posted,fun i row behind there => ?_,?_⟩
  · exact absurd scanned (by rw [show job.scanned = false from unscanned]; simp)
  · change entry.found.hash = cursorAfter x.start (x.names.take (job.position + 1))
    rw [List.take_add_one,named]
    simp [cursorAfter]
  · rcases Nat.lt_succ_iff_lt_or_eq.mp before with earlier | rfl
    · exact placed.passed i earlier
    · exact ⟨entry,here,final⟩
  · exact placed.behind i row (reached.trans (further.trans behind)) there
  · exact placed.sent.trans (List.take_sublist_take_left (reached.trans further))

theorem placedScan (placed : Stands x sent job) {scan : RefreshScan} (here : job.scan = some scan)
    (unscanned : scan.complete = false) {answer : ScanAnswer} (meets : x.meets answer) (now : UInt64)
    {task : RefreshTask} (running : task = .posted →
      (refreshScan now job.deadline answer scan).1 = .again ∧ job.scanning = true) :
    Stands x sent {job with scan := some (refreshScan now job.deadline answer scan).2, task := task} := by
  have open_ : job.scanned = false := by simp [RefreshJob.scanned,here,unscanned]
  obtain ⟨start,none_⟩ := placed.unscanned open_
  have spec : ((refreshScan now job.deadline answer scan).2.complete = true →
      (refreshScan now job.deadline answer scan).2.entries.map (fun entry => entry.found.hash) = x.names ∧
      (refreshScan now job.deadline answer scan).2.more = x.more) := by
    unfold refreshScan
    split
    · simp [unscanned]
    dsimp only
    split
    · simp [unscanned]
    dsimp only
    intro complete
    rw [if_pos complete]
    obtain ⟨names,more⟩ := meets (by simpa using complete)
    refine ⟨?_,more⟩
    rw [List.map_insertionSort (r := fun a b : RefreshEntry => a.found.hash ≤ b.found.hash) (s := (· ≤ ·)) _ _
      fun _ _ _ _ => Iff.rfl,List.map_map]
    exact names
  refine ⟨fun _ => ⟨start,none_⟩,fun complete => spec complete,placed.after,?_,fun waits => ?_,fun i entry behind there => ?_,?_⟩
  · intro i before
    rw [show (RefreshJob.position _) = job.position from rfl,start] at before
    exact absurd before (Nat.not_lt_zero i)
  · obtain ⟨again,scanning⟩ := running waits
    refine ⟨?_,scanning⟩
    change (refreshScan now job.deadline answer scan).2.complete = false
    rw [scanAgain again,unscanned]
  · rcases scanRows now job.deadline answer scan with kept | blank
    · refine placed.behind i entry (le_trans (le_of_eq ?_) behind) ?_
      · rw [RefreshJob.reached,RefreshJob.reached,RefreshJob.underway,RefreshJob.underway,entryAt,entryAt]
        simp only [RefreshJob.entries,here,kept,Option.map_some]
      · simpa only [RefreshJob.entries,here,kept,Option.map_some] using there
    · exact blank entry (List.mem_of_getElem? there)
  · rw [none_]
    exact List.nil_sublist _

theorem recordTwice (f g : RefreshEntry → RefreshEntry) : (job.record f).record g = job.record (g ∘ f) := by
  unfold RefreshJob.record
  cases job.scan with
  | none => rfl
  | some scan => simp [List.modify_modify_eq]

theorem placedDone (placed : Stands x sent job) (slot : Slot) (status : Nat) (q : Queue) :
    Stands x sent (refreshDone slot status job q).1 := by
  let noted (entry : RefreshEntry) : RefreshEntry := {entry with status := status}
  let answered := RefreshJob.record noted {job with active := false, credit := false}
  have there {entry : RefreshEntry} (here : job.entries[job.position]? = some entry) :
      answered.entries[answered.position]? = some (noted entry) := by
    have rows : answered.entries = job.entries.modify job.position noted := recordEntries noted
    rw [rows]
    exact (List.getElem?_modify_eq ..).trans (by rw [here]; rfl)
  have row {result : RefreshResult} (final : result ≠ .pending) : Stands x sent (answered.result result) := by
    let judged (entry : RefreshEntry) : RefreshEntry := {entry with result := result}
    have twice := congrArg RefreshJob.scan (@recordTwice {job with active := false, credit := false} noted judged)
    exact placedRow placed (judged ∘ noted) (fun _ => rfl) twice rfl rfl (fun posted => ⟨posted,rfl⟩)
      fun _ here => resultUnderway final (there here) rfl rfl
  unfold refreshDone
  split
  · exact placed
  simp only [releaseCreditJob]
  refine placedWait ?_
  change Stands x sent (answered.settle status)
  unfold RefreshJob.settle
  split
  · rename_i refused
    refine placedRow placed noted (fun _ => rfl) rfl rfl rfl (fun posted => ⟨posted,rfl⟩) fun entry here => ?_
    rw [entryAt,there here] at refused
    have final : entry.result = .profile := Option.some.inj refused
    rw [RefreshJob.underway,entryAt,there here]
    simp [noted,final]
  split
  · exact row (by decide)
  split
  · exact placedRow placed noted (fun _ => rfl) rfl rfl rfl (fun posted => ⟨posted,rfl⟩) fun _ _ => by simp [RefreshJob.underway]
  · exact row (by split <;> decide)

theorem placedSlice (placed : Stands x sent job) {scan : RefreshScan} (here : job.scan = some scan)
    (posted : job.task = .posted) {answer : ScanAnswer} (meets : x.meets answer) (now : UInt64) :
    Stands x sent {job with
      scan := some (refreshScan now job.deadline answer scan).2
      task := if (refreshScan now job.deadline answer scan).1 = .again then .posted else .ran} := by
  obtain ⟨unscanned,scanning⟩ := placed.posted posted
  refine placedScan placed here (by simpa [RefreshJob.scanned,here] using unscanned) meets now fun waits => ?_
  split at waits
  · rename_i again
    exact ⟨again,scanning⟩
  · contradiction

theorem placedCleanup (placed : Stands x sent job) {slot : Slot} {q : Queue} (left : (refreshCleanup slot job q).1 = some job') :
    Stands x sent job' := by
  simp only [refreshCleanup,releaseCreditJob] at left
  split at left
  · contradiction
  cases Option.some.inj left
  exact placedSame (placedCancel placed) rfl rfl rfl (fun posted => ⟨posted,rfl⟩) rfl rfl

theorem placedExtent (placed : Stands x sent job) {timely : Prop}
    (ontime : timely → job.scanned = true → job.position < job.entries.length → job.underway = false)
    (scanned : job.scanned = true) : ∃ reached, (reached = job.position ∨ reached = job.position + 1 ∧ ¬ timely) ∧
      sent.Sublist (x.names.take reached) ∧ ∀ entry ∈ job.entries.drop reached, entry.untouched := by
  have length : job.entries.length = x.names.length := by
    rw [← (placed.scanned scanned).1,RefreshJob.names,List.length_map]
  by_cases last : job.entries.length ≤ job.position
  · refine ⟨job.position,.inl rfl,?_,fun entry inside => ?_⟩
    · rw [List.take_of_length_le (length ▸ last)]
      exact placed.sent.trans (List.take_sublist _ _)
    · rw [List.drop_eq_nil_of_le last] at inside
      contradiction
  · refine ⟨job.reached,?_,placed.sent,fun entry inside => ?_⟩
    · cases under : job.underway with
      | false => exact .inl (by simp [RefreshJob.reached,under])
      | true =>
        refine .inr ⟨by simp [RefreshJob.reached,under],fun time => ?_⟩
        rw [ontime time scanned (not_le.mp last)] at under
        contradiction
    · obtain ⟨i,there⟩ := List.mem_iff_getElem?.mp inside
      rw [List.getElem?_drop] at there
      exact placed.behind _ entry (Nat.le_add_right _ _) there

theorem replyReports (placed : Stands x sent job) {timely : Prop} {memory : Bool} {body : RefreshBody}
    (ontime : timely → job.scanned = true → job.position < job.entries.length → job.underway = false)
    (replies : refreshReply memory job = .page body) : Reported x timely sent body := by
  unfold refreshReply at replies
  split at replies
  · contradiction
  split at replies
  · contradiction
  cases replies
  have rows : (job.scan.map RefreshScan.entries).getD [] = job.entries := rfl
  refine ⟨fun unfinished => ?_,fun finished => ?_⟩
  · have unscanned : job.scan.any RefreshScan.complete = false := unfinished
    obtain ⟨start,none_⟩ := placed.unscanned unscanned
    have after := placed.after
    rw [start] at after
    simp only [unscanned,Bool.false_eq_true,if_false,Bool.false_and]
    exact ⟨rfl,trivial,after,none_⟩
  · have scanned : job.scan.any RefreshScan.complete = true := finished
    obtain ⟨names,more⟩ := placed.scanned scanned
    have length : job.entries.length = x.names.length := by
      rw [← names,RefreshJob.names,List.length_map]
    have within : job.position ≤ job.entries.length := by
      by_contra beyond
      obtain ⟨entry,here,_⟩ := placed.passed job.entries.length (by omega)
      simp at here
    obtain ⟨reached,far,probes,blank⟩ := placedExtent placed ontime scanned
    simp only [scanned,if_true,rows,Bool.true_and]
    refine ⟨job.position,length ▸ within,?_,by rw [length],placed.after,?_,?_,reached,far,probes,?_⟩
    · rw [← names,List.map_map]
      rfl
    · rw [more,Bool.and_eq_true,Bool.not_eq_true',beq_iff_eq,length]
    · intro row member
      rw [← List.map_take] at member
      obtain ⟨entry,taken,rfl⟩ := List.mem_map.mp member
      obtain ⟨i,there⟩ := List.mem_iff_getElem?.mp taken
      rw [List.getElem?_take] at there
      split at there
      · rename_i before
        obtain ⟨entry',here,final⟩ := placed.passed i before
        rw [here] at there
        exact Option.some.inj there ▸ final
      · contradiction
    · intro row member
      rw [← List.map_drop] at member
      obtain ⟨entry,inside,rfl⟩ := List.mem_map.mp member
      obtain ⟨status,result⟩ := blank entry inside
      simp [RefreshRow.touched,status,result]

end jobs

def RefreshEvent.answer : RefreshEvent → Option ScanAnswer
  | .timer _ a | .notify _ a => some a.scan
  | .slice _ _ answer => some answer
  | _ => none

def RefreshOutput.sends (id : Nat) : RefreshOutput → Option Bytes
  | .dispatched own _ _ found => if own = id then some found.hash else none
  | _ => none

def sentBy (id : Nat) (out : List RefreshOutput) : List Bytes := out.filterMap (RefreshOutput.sends id)

/- The page with the id stands as its scan, its answers and its probes say, after a step too. -/
structure Standing (x : Expected) (id n : Nat) (timely : Prop) (sent : List Bytes) (r : Pages × List RefreshOutput) :
    Prop where
  opened : r.1.opened = n
  pages : ∀ page ∈ r.1.pages, page.id < n ∧ (page.id = id → Stands x (sent ++ sentBy id r.2) page.job)
  replies : ∀ body, .replied id (.page body) ∈ r.2 → Reported x timely (sent ++ sentBy id r.2) body

def RefreshOutput.quiet : RefreshOutput → Bool
  | .dispatched .. | .replied _ (.page _) => false
  | _ => true

section steps
variable {x : Expected} {id n : Nat} {timely : Prop} {sent : List Bytes} {config : Config} {p : Process} {page : Page}
  {a : StepAnswer} {s : Pages} {job : RefreshJob} (opened : s.opened = n)
  (others : ∀ other ∈ s.pages, other.id < n ∧ (other.id = id → Stands x sent other.job))

theorem quietSent {out : List RefreshOutput} (quiet : out.all RefreshOutput.quiet = true) (id : Nat) : sentBy id out = [] := by
  refine List.filterMap_eq_nil_iff.mpr fun o member => ?_
  have silent := List.all_eq_true.mp quiet o member
  cases o <;> simp_all [RefreshOutput.quiet,RefreshOutput.sends]

theorem quietReplies {out : List RefreshOutput} (quiet : out.all RefreshOutput.quiet = true) (id : Nat) (body : RefreshBody) :
    .replied id (.page body) ∉ out :=
  fun member => Bool.noConfusion (List.all_eq_true.mp quiet _ member)

include opened others

theorem keptSame {out : List RefreshOutput} (quiet : out.all RefreshOutput.quiet = true) :
    Standing x id n timely sent (s,out) := by
  refine ⟨opened,fun other member => ?_,fun body said => absurd said (quietReplies quiet id body)⟩
  rw [quietSent quiet id,List.append_nil]
  exact others other member

theorem keptRevise {f : Page → Page} {out : List RefreshOutput}
    (mine : ∀ other ∈ s.pages, other.id = page.id → (f other).id = other.id ∧ (other.id = id →
      Stands x (sent ++ sentBy id out) (f other).job))
    (apart : page.id ≠ id → sentBy id out = []) (silent : ∀ body, .replied id (.page body) ∉ out) :
    Standing x id n timely sent (s.revise page.id f,out) := by
  refine ⟨opened,fun other member => ?_,fun body said => absurd said (silent body)⟩
  obtain ⟨old,there,rfl⟩ := List.mem_map.mp member
  split
  · rename_i here
    obtain ⟨same,placed⟩ := mine old there (by simpa using here)
    rw [same]
    exact ⟨(others old there).1,placed⟩
  · rename_i other
    refine ⟨(others old there).1,fun own => ?_⟩
    rw [apart fun same => other (by simp [own,same]),List.append_nil]
    exact (others old there).2 own

theorem keptSet (mine : page.id = id → Stands x sent job) {out : List RefreshOutput}
    (quiet : out.all RefreshOutput.quiet = true) : Standing x id n timely sent (s.setJob page.id job,out) := by
  refine keptRevise opened others (fun _ _ same => ⟨rfl,fun here => ?_⟩) (fun _ => quietSent quiet id) (quietReplies quiet id)
  rw [quietSent quiet id,List.append_nil]
  exact mine (same.symm.trans here)

theorem keptClose {out : List RefreshOutput} (said : ∀ body, .replied id (.page body) ∈ out → Reported x timely sent body)
    (unsent : sentBy id out = []) : Standing x id n timely sent (s.close page,out) := by
  refine ⟨opened,fun other member => ?_,fun body replied => ?_⟩
  · rw [unsent,List.append_nil]
    exact others other (List.mem_filter.mp member).1
  · rw [unsent,List.append_nil]
    exact said body replied

theorem keptReply (mine : page.id = id → Stands x sent job)
    (ontime : timely → page.id = id → job.scanned = true → job.position < job.entries.length → job.underway = false) :
    Standing x id n timely sent (replyStep page a job s) := by
  refine keptClose opened others (fun body said => ?_) rfl
  simp only [List.mem_singleton,RefreshOutput.replied.injEq] at said
  exact replyReports (mine said.1.symm) (fun time => ontime time said.1.symm) said.2.symm

theorem keptProbe (mine : page.id = id → Stands x sent job) (idle : job.active = false) (undecided : job.decision = false)
    {entry : RefreshEntry} (here : job.entries[job.position]? = some entry) (pending : entry.result = .pending)
    (scanned : job.scanned = true) : Standing x id n timely sent (probeStep config p page a job entry.found s) := by
  have spec := @refreshProbeSpec (config.names job.conf.ns) p.slot (s.system.alive a.claims) a.probe
    (s.system.zones job.conf.ns) entry.found job s.system.queue
  have passes {job' : RefreshJob} {result : RefreshResult} (final : result ≠ .pending) (placed : Stands x sent job')
      (scan : job'.scan = job.scan) (position : job'.position = job.position) :
      Stands x sent ((job'.result result).advance entry.found) := by
    have there : (job'.result result).entries[(job'.result result).position]? =
        some {entry with result := result} := by
      change (RefreshJob.record _ job').entries[job'.position]? = _
      rw [recordEntries,List.getElem?_modify_eq,position,show job'.entries = job.entries by
        unfold RefreshJob.entries; rw [scan],here]
      rfl
    have scanned' : (job'.result result).scanned = true := by
      rw [show (job'.result result).scanned = job'.scanned from recordScanned _,show job'.scanned = job.scanned by
        unfold RefreshJob.scanned; rw [scan]]
      exact scanned
    exact placedAdvance (placedResult placed final job'.decision) there rfl scanned' final
  unfold probeStep
  dsimp only
  generalize refreshProbe (config.names job.conf.ns) p.slot (s.system.alive a.claims) a.probe
    (s.system.zones job.conf.ns) entry.found job s.system.queue = outcome at spec
  cases spec with
  | @declined result uri etag modified job' q final same =>
    subst same
    simp only [reduceCtorEq,if_false]
    refine keptSet (s := s.setQueue q) opened others (fun own => ?_) rfl
    exact @passes {job with uri := uri, etag := etag, modified := modified} result final
      (placedSame (mine own) rfl rfl rfl (fun posted => ⟨posted,rfl⟩) rfl rfl) rfl rfl
  | @again uri etag modified job' q same =>
    subst same
    simp only [reduceCtorEq,if_false,if_true]
    refine keptSet (s := s.setQueue q) opened others (fun own => ?_) rfl
    exact placedSame (mine own) rfl rfl rfl (fun posted => ⟨posted,rfl⟩) rfl rfl
  | @failed uri etag modified job' q same =>
    subst same
    simp only [reduceCtorEq,if_false,if_true]
    refine keptSet (s := s.setQueue q) opened others (fun own => ?_) rfl
    exact @passes {job with uri := uri, etag := etag, modified := modified, credit := false} .error (by decide)
      (placedSame (mine own) rfl rfl rfl (fun posted => ⟨posted,rfl⟩) rfl rfl) rfl rfl
  | @sent uri etag modified job' q mapped same =>
    subst same
    simp only [if_true]
    refine keptRevise (s := s.setQueue q) opened others (fun other member own => ⟨rfl,fun here' => ?_⟩) (fun apart => ?_) (by simp)
    · have probe : sentBy id [.dispatched page.id page.sent job.position entry.found] = [entry.found.hash] := by
        simp [sentBy,RefreshOutput.sends,own.symm.trans here']
      rw [probe]
      exact placedDispatch (mine (own.symm.trans here')) idle undecided here pending scanned rfl rfl rfl
        (fun posted => ⟨posted,rfl⟩) rfl
    · simp [sentBy,RefreshOutput.sends,apart]

theorem keptEntry (mine : page.id = id → Stands x sent job) (idle : job.active = false) {entry : RefreshEntry}
    (here : job.entries[job.position]? = some entry) (scanned : job.scanned = true) :
    Standing x id n timely sent (entryStep config p page a job entry s) := by
  unfold entryStep
  split
  · obtain ⟨⟨sub,same⟩,said⟩ := @refreshInvalidateSpec config p page a job entry.found s
    dsimp only
    generalize refreshInvalidate config p page a job entry.found s = outcome at sub same said
    obtain ⟨rc,left,out⟩ := outcome
    dsimp only at sub same said ⊢
    have quiet : out.all RefreshOutput.quiet = true := by
      rcases said with rfl | ⟨zone,_,rfl⟩ <;> rfl
    have opened := same.trans opened
    have others : ∀ other ∈ left.pages, other.id < n ∧ (other.id = id → Stands x sent other.job) :=
      fun other member => others other (sub.mem member)
    split
    · exact keptSet (s := left) opened others (fun own => placedWait (mine own)) quiet
    · refine keptSet (s := left) opened others (fun own => ?_) quiet
      have final : decisionResult rc ≠ .pending := by
        unfold decisionResult
        split
        · simp
        · split <;> simp
      have there : (job.result (decisionResult rc)).entries[job.position]? =
          some {entry with result := decisionResult rc} := by
        rw [show (job.result (decisionResult rc)).entries = job.entries.modify job.position _ from recordEntries _]
        simp [here]
      have scanned' : (job.result (decisionResult rc)).scanned = true := (recordScanned _).trans scanned
      exact @placedAdvance x sent {job.result (decisionResult rc) with decision := false}
        (placedResult (mine own) final false) _ _ there rfl scanned' final
  · rename_i undecided
    split
    · rename_i pending
      exact keptProbe opened others mine idle (by simpa using undecided) here pending scanned
    · rename_i final
      exact keptSet opened others (fun own => placedAdvance (mine own) here rfl scanned final) rfl

theorem keptScanned (mine : page.id = id → Stands x sent job) (idle : job.active = false) {scan : RefreshScan}
    (same : job.scan = some scan) : Standing x id n timely sent (scannedStep config p page a job scan s) := by
  have entries : job.entries = scan.entries := by simp [RefreshJob.entries,same]
  unfold scannedStep
  split
  · rename_i open_
    have unscanned : job.scanned = false := by simpa [RefreshJob.scanned,same] using open_
    exact keptReply opened others
      (fun own => placedSame (mine own) rfl rfl rfl (fun posted => ⟨posted,rfl⟩) rfl rfl)
      fun _ _ scanned => absurd (unscanned.symm.trans scanned) Bool.false_ne_true
  · rename_i complete
    have scanned : job.scanned = true := by simpa [RefreshJob.scanned,same] using complete
    split
    · rename_i last
      refine keptReply opened others mine fun _ _ _ inside => ?_
      rw [entries] at inside
      exact absurd inside (not_lt.mpr (List.getElem?_eq_none_iff.mp last))
    · rename_i entry here
      exact keptEntry opened others mine idle (entries ▸ here) scanned

theorem keptScan (mine : page.id = id → Stands x sent job) (idle : job.active = false) {scan : RefreshScan}
    (same : job.scan = some scan) (free : page.id = id → job.scanning = false) (meets : page.id = id → x.meets a.scan) :
    Standing x id n timely sent (scanStep config p page a job scan s) := by
  unfold scanStep
  split
  · exact keptScanned opened others mine idle same
  · rename_i open_
    simp only [Bool.or_eq_true,not_or,Bool.not_eq_true] at open_
    have unscanned : job.scanned = false := by simp [RefreshJob.scanned,same,open_.1.1]
    split
    · refine keptSet opened others (fun own => ?_) rfl
      obtain ⟨start,known,after,passed,_,behind,probes⟩ := mine own
      refine ⟨start,known,after,passed,fun posted => ⟨unscanned,?_⟩,behind,probes⟩
      change a.posted = true
      change (if a.posted then RefreshTask.posted else .idle) = .posted at posted
      split at posted
      · rename_i yes
        exact yes
      · contradiction
    · dsimp only
      have sliced (own : page.id = id) :
          Stands x sent {job with scan := some (refreshScan a.now job.deadline a.scan scan).2} := by
        refine @placedScan x sent job (mine own) scan same open_.1.1 a.scan (meets own) a.now job.task fun posted => ?_
        have busy := ((mine own).posted posted).2
        rw [free own] at busy
        contradiction
      split
      · exact keptSet opened others (fun own => placedWait (sliced own)) rfl
      · exact keptScanned opened others sliced idle rfl

theorem keptRefresh (mine : page.id = id → Stands x sent page.job) (meets : page.id = id → x.meets a.scan)
    (ontime : timely → page.id = id → (page.job.expire a.now p.leaving).timedOut = true → page.job.underway = false) :
    Standing x id n timely sent (refreshStep config p page a s) := by
  have expired (own : page.id = id) := placedExpire (mine own) a.now p.leaving
  unfold refreshStep
  dsimp only
  split
  · exact keptSet opened others mine rfl
  split
  · exact keptSet opened others (fun own => placedWait (expired own)) rfl
  rename_i free
  simp only [Bool.or_eq_true,not_or,Bool.not_eq_true] at free
  split
  · rename_i out
    refine keptReply opened others expired fun time own _ _ => ?_
    rw [expireUnderway]
    exact ontime time own out
  split
  · exact keptSet opened others (fun own => placedWait (expired own)) rfl
  split
  · rename_i scan same
    exact keptScan opened others expired free.2 same (fun _ => free.1) meets
  · rename_i absent
    split
    · refine ⟨opened,fun other member => ?_,by simp⟩
      rw [quietSent rfl id,List.append_nil]
      exact others other (List.mem_filter.mp member).1
    · rename_i job prepared
      obtain ⟨threaded,rfl⟩ := preparedFresh prepared
      dsimp only
      refine @keptScan x id n timely sent config p page a {s with current := Function.update s.current page.pid (some page.id)} _
        opened others (fun own => ?_) (by exact free.2) _ rfl (fun _ => free.1) meets
      obtain ⟨start,_,after,passed,posted,_,_⟩ := expired own
      have nothing : (page.job.expire a.now p.leaving).scanned = false := by simp [RefreshJob.scanned,absent]
      obtain ⟨first,none_⟩ := start nothing
      refine ⟨fun _ => ⟨first,none_⟩,fun scanned => absurd scanned (by simp [RefreshJob.scanned]),after,?_,
        fun waits => ⟨rfl,(posted waits).2⟩,fun _ _ _ there => by simp [RefreshJob.entries] at there,?_⟩
      · change ∀ i < (page.job.expire a.now p.leaving).position, _
        rw [first]
        exact fun i before => absurd before (Nat.not_lt_zero i)
      · rw [none_]
        exact List.nil_sublist _

theorem keptPage {late : Bool} {e : RefreshEvent} (mine : page.id = id → Stands x sent page.job)
    (meets : page.id = id → ∀ answer ∈ e.answer, x.meets answer) (ontime : timely → page.id = id → e.cuts p page = false) :
    Standing x id n timely sent (pageStep config late p page s e) := by
  have turn := pageCases config late p page s e
  generalize pageStep config late p page s e = out at turn ⊢
  have inTime {a : StepAnswer} (cuts : timely → page.id = id →
      ((page.job.expire a.now p.leaving).timedOut && page.job.underway) = false) (time : timely) (own : page.id = id)
      (out : (page.job.expire a.now p.leaving).timedOut = true) : page.job.underway = false := by
    simpa [out] using cuts time own
  cases turn with
  | idle => exact keptSame opened others rfl
  | @timer _ a =>
    refine @keptRefresh x id n timely sent config p {page with job := {page.job with timer := false}} a s opened others
      (fun own => placedSame (mine own) rfl rfl rfl (fun posted => ⟨posted,rfl⟩) rfl rfl) (fun own => meets own _ rfl)
      fun time own out => inTime ontime time own ?_
    unfold RefreshJob.expire at out ⊢
    split at out <;> simp_all
  | @slice _ now answer scan posted open_ =>
    exact keptSet opened others (fun own => placedSlice (mine own) open_ posted (meets own _ rfl) now) rfl
  | closed gone => exact keptClose opened others (by simp) rfl
  | @told _ a ran alive =>
    have told (own : page.id = id) : Stands x sent {page.job with scanning := false, task := .idle, timer := false} :=
      placedSame (mine own) rfl rfl rfl (fun posted => absurd posted (by simp)) rfl rfl
    refine @keptRefresh x id n timely sent config p {page with job := _} a s opened others told (fun own => meets own _ rfl)
      fun time own out => inTime ontime time own ?_
    unfold RefreshJob.expire at out ⊢
    split at out <;> simp_all
  | rejected alive flying =>
    exact keptSet opened others (fun own => placedResult (mine own) (by decide) page.job.decision) rfl
  | @completed _ probe status called =>
    simp only [completeStep]
    have quiet : List.all (if probe ∈ page.flying then [RefreshOutput.completed page.id probe status] else [])
        RefreshOutput.quiet = true := by split <;> rfl
    refine keptRevise (s := s.setQueue (refreshDone p.slot status page.job s.system.queue).2)
      (f := Page.finish probe (refreshDone p.slot status page.job s.system.queue).1) opened others
      (fun other member own => ⟨rfl,fun here => ?_⟩) (fun _ => quietSent quiet id) (quietReplies quiet id)
    rw [quietSent quiet id,List.append_nil]
    exact placedDone (mine (own.symm.trans here)) p.slot status s.system.queue
  | left_ =>
    exact keptClose (s := s.setQueue (refreshCleanup p.slot page.job s.system.queue).2) opened others (by simp) rfl
  | @cut _ job kept =>
    refine keptRevise (s := s.setQueue (refreshCleanup p.slot page.job s.system.queue).2) (f := Page.cut job)
      opened others (fun other member own => ⟨rfl,fun here => ?_⟩) (fun _ => rfl) (by simp)
    rw [quietSent rfl id,List.append_nil]
    exact placedCleanup (mine (own.symm.trans here)) kept

end steps

section runs
variable {x : Expected} {id : Nat} {timely : Prop} {sent : List Bytes} {config : Config} {late : Bool} {s : Pages}
  {e : RefreshEvent} (others : ∀ other ∈ s.pages, other.id < s.opened ∧ (other.id = id → Stands x sent other.job))
include others

theorem keptStep (born : id ≠ s.opened) (meets : e.page = id → ∀ answer ∈ e.answer, x.meets answer)
    (ontime : timely → s.promptly id e = true) :
    Standing x id (s.step config late e).1.opened timely sent (s.step config late e) ∧
      s.opened ≤ (s.step config late e).1.opened := by
  have turn := pagesCases config late s e
  generalize s.step config late e = out at turn ⊢
  have quiet (page : Page) (here : page.id = id → Stands x sent page.job) (own : page.id = id) :
      Stands x (sent ++ sentBy id []) page.job := by
    rw [quietSent rfl id,List.append_nil]
    exact here own
  cases turn with
  | idle => exact ⟨keptSame rfl others rfl,le_rfl⟩
  | worked =>
    refine ⟨⟨rfl,fun other member => ?_,by simp⟩,le_rfl⟩
    obtain ⟨below,here⟩ := others other (List.mem_filter.mp member).1
    exact ⟨below,quiet other here⟩
  | started running mine =>
    refine ⟨⟨rfl,fun other member => ?_,by simp⟩,Nat.le_succ _⟩
    rcases List.mem_append.mp member with old | new
    · obtain ⟨below,here⟩ := others other old
      exact ⟨Nat.lt_succ_of_lt below,quiet other here⟩
    · rw [List.mem_singleton.mp new]
      exact ⟨Nat.lt_succ_self _,fun here => absurd here.symm born⟩
  | @visited _ p page member called running mine present =>
    have kept : Standing x id s.opened timely sent (pageStep config late p page s e) := by
      refine keptPage rfl others (others page member).2 (fun own => meets (called.symm.trans own)) fun time own => ?_
      have all := List.all_eq_true.mp (List.all_eq_true.mp (ontime time) page member) p running
      simpa [← called,own,mine] using all
    rw [kept.opened]
    exact ⟨kept,le_rfl⟩

end runs

theorem numberedRun (config : Config) (late : Bool) (maxSize : Nat) (paths : List (Nat × Bytes))
    (epochs : Nat → Epoch) (events : List RefreshEvent) :
    ∀ page ∈ ((refreshMachine config late).after (refreshInit maxSize paths epochs) events).pages,
      page.id < ((refreshMachine config late).after (refreshInit maxSize paths epochs) events).opened := by
  refine (refreshMachine config late).invariant (P := fun s => ∀ page ∈ s.pages, page.id < s.opened)
    (fun s e numbered => ?_) (by simp [refreshInit]) events
  -- An id that neither the event nor any page has yet.
  have absent : ∀ page ∈ s.pages, page.id < s.opened ∧
      (page.id = s.opened + e.page + 1 → Stands ⟨[],[],false⟩ [] page.job) :=
    fun page member => ⟨numbered page member,fun same => by have := numbered page member; omega⟩
  have kept := (@keptStep ⟨[],[],false⟩ _ False [] config late s e absent (by omega) (fun same => by omega) False.elim).1
  exact fun page member => (kept.pages page member).1

theorem placedStart {config : Config} {late : Bool} {x : Expected} {s : Pages}
    (numbered : ∀ page ∈ s.pages, page.id < s.opened) {pid : Pid} {conf : RefreshConf} {deadline : UInt64}
    (opens : (s.step config late (.start pid conf deadline x.start)).1.opened = s.opened + 1) :
    ∀ page ∈ (s.step config late (.start pid conf deadline x.start)).1.pages,
      page.id < (s.step config late (.start pid conf deadline x.start)).1.opened ∧
        (page.id = s.opened → Stands x [] page.job) := by
  rw [opens]
  simp only [Pages.step] at opens ⊢
  split at opens
  · rename_i able
    rw [if_pos able]
    intro page member
    rcases List.mem_append.mp member with old | new
    · have before := numbered page old
      exact ⟨Nat.lt_succ_of_lt before,fun same => absurd before (by simp [same])⟩
    · rw [List.mem_singleton.mp new]
      exact ⟨Nat.lt_succ_self _,fun _ => placedFresh conf deadline⟩
  · exact absurd opens (Nat.ne_of_lt (Nat.lt_succ_self _))

theorem placedRun {config : Config} {late : Bool} {x : Expected} {s : Pages} {id : Nat}
    (placed : ∀ page ∈ s.pages, page.id < s.opened ∧ (page.id = id → Stands x [] page.job)) (born : id < s.opened)
    {events : List RefreshEvent} {last : RefreshEvent}
    (meets : ∀ e ∈ events ++ [last], e.page = id → ∀ answer ∈ e.answer, x.meets answer) {timely : Prop}
    (ontime : timely → ((refreshMachine config late).after s events).promptly id last = true) {body : RefreshBody}
    (replied : .replied id (.page body) ∈ (((refreshMachine config late).after s events).step config late last).2) :
    Reported x timely (sentBy id ((refreshMachine config late).outputs s (events ++ [last]))) body := by
  have tracked := @Machine.tracksWhile _ _ _ (refreshMachine config late)
    (fun e => e.page = id → ∀ answer ∈ e.answer, x.meets answer)
    (fun past s => (∀ page ∈ s.pages, page.id < s.opened ∧ (page.id = id → Stands x (sentBy id past) page.job)) ∧
      id < s.opened) s [] ⟨placed,born⟩
    (fun past s e meets ⟨others,born⟩ => ?_) events fun e member => meets e (List.mem_append_left _ member)
  · rw [List.nil_append] at tracked
    have kept := (@keptStep x id timely _ config late _ last tracked.1 (Nat.ne_of_lt tracked.2)
      (meets last (by simp)) ontime).1
    have said : Reported x timely (sentBy id ((refreshMachine config late).outputs s events) ++
      sentBy id ((refreshMachine config late).step ((refreshMachine config late).after s events) last).2) body :=
        kept.replies body replied
    rw [Machine.outputsAppend,Machine.outputsCons,Machine.outputsNil,List.append_nil,sentBy,List.filterMap_append]
    exact said
  · obtain ⟨kept,later⟩ := @keptStep x id False (sentBy id past) config late s e others (Nat.ne_of_lt born) meets False.elim
    rw [sentBy,List.filterMap_append]
    exact ⟨kept.pages,born.trans_le later⟩

end CachePurge
