import CachePurge.RefreshRuns

/-! To which entry a completion is charged. ngx_http_cache_refresh_done knows the
entry only by the position of the page: as long as no probe is answered again while
a later one is in flight, what a row records comes from its own probe, and a credit
is given back by the probe that holds it. -/
namespace CachePurge
open General

/- The probe of the entry has completed with the status of the row. -/
def ProbeAnswered (past : List RefreshOutput) (id i : Nat) (row : RefreshEntry) : Prop :=
  ∃ probe, [.dispatched id probe i row.found,.completed id probe row.status].Sublist past

/- The results that rest on the status of a probe. -/
def RefreshResult.charged : RefreshResult → Bool
  | .kept | .transport | .status | .invalidated => true
  | _ => false

def RefreshResult.admits (status : Nat) : RefreshResult → Prop
  | .kept => status = 304
  | .transport => status = 0
  | .status => status ≠ 0 ∧ status ≠ 304 ∧ status ≠ 200 ∧ status ≠ 404 ∧ status ≠ 410
  | .invalidated => status = 200 ∨ status = 404 ∨ status = 410
  | _ => True

structure RowOwn (past : List RefreshOutput) (id i : Nat) (row : RefreshEntry) : Prop where
  answered : row.status ≠ 0 ∨ row.result.charged = true → ProbeAnswered past id i row
  result : row.result.admits row.status

structure Own (past : List RefreshOutput) (id : Nat) (job : RefreshJob) : Prop where
  rows : ∀ (i : Nat) row, job.entries[i]? = some row → RowOwn past id i row
  decided : job.decision = true → ∃ row, job.entries[job.position]? = some row ∧
    ProbeAnswered past id job.position row ∧ (row.status = 200 ∨ row.status = 404 ∨ row.status = 410)
  probing : job.active = true → ∀ row, job.entries[job.position]? = some row → row.result.charged = false
  unscanned : job.scanned = false → job.decision = false

section jobs
variable {past : List RefreshOutput} {id : Nat} {job job' : RefreshJob}

theorem answeredGrows {i : Nat} {row : RefreshEntry} (answered : ProbeAnswered past id i row) (out : List RefreshOutput) :
    ProbeAnswered (past ++ out) id i row := by
  obtain ⟨probe,sub⟩ := answered
  exact ⟨probe,sub.trans (List.sublist_append_left past out)⟩

theorem ownGrows (own : Own past id job) (out : List RefreshOutput) : Own (past ++ out) id job := by
  refine ⟨fun i row here => ?_,fun decision => ?_,own.probing,own.unscanned⟩
  · have mine := own.rows i row here
    exact ⟨fun held => answeredGrows (mine.answered held) out,mine.result⟩
  · obtain ⟨row,here,answered,calls⟩ := own.decided decision
    exact ⟨row,here,answeredGrows answered out,calls⟩

theorem ownFresh (conf : RefreshConf) (deadline : UInt64) (after : Bytes) : Own past id (.fresh conf deadline after) :=
  ⟨by simp [RefreshJob.fresh,RefreshJob.entries],by simp [RefreshJob.fresh],by simp [RefreshJob.fresh],
    by simp [RefreshJob.fresh]⟩

theorem ownSame (own : Own past id job) (entries : job'.entries = job.entries) (scanned : job'.scanned = job.scanned)
    (position : job'.position = job.position) (decision : job'.decision = job.decision)
    (active : job'.active = true → job.active = true) : Own past id job' := by
  refine ⟨?_,?_,fun probing => ?_,?_⟩
  · rw [entries]
    exact own.rows
  · rw [entries,position,decision]
    exact own.decided
  · rw [entries,position]
    exact own.probing (active probing)
  · rw [scanned,decision]
    exact own.unscanned

theorem ownScanSame (own : Own past id job) (scan : job'.scan = job.scan) (position : job'.position = job.position)
    (decision : job'.decision = job.decision) (active : job'.active = true → job.active = true) : Own past id job' :=
  ownSame own (by unfold RefreshJob.entries; rw [scan]) (by unfold RefreshJob.scanned; rw [scan]) position decision active

theorem ownWait (own : Own past id job) : Own past id job.wait := ownScanSame own rfl rfl rfl fun active => active

theorem ownExpire (own : Own past id job) (now : UInt64) (leaving : Bool) : Own past id (job.expire now leaving) := by
  unfold RefreshJob.expire
  split
  · refine ownSame own ?_ ?_ rfl rfl fun active => active
    · unfold RefreshJob.entries
      cases job.scan <;> rfl
    · unfold RefreshJob.scanned
      cases job.scan <;> rfl
  · exact own

theorem ownRecord {past' : List RefreshOutput} (grown : ∀ i row, ProbeAnswered past id i row → ProbeAnswered past' id i row)
    (own : Own past id job) (f : RefreshEntry → RefreshEntry)
    (mine : ∀ row, job.entries[job.position]? = some row → RowOwn past' id job.position (f row)) :
    ∀ (i : Nat) row, (job.record f).entries[i]? = some row → RowOwn past' id i row := by
  intro i row here
  rw [recordEntries,List.getElem?_modify] at here
  by_cases same : job.position = i
  · subst same
    obtain ⟨old,there,changed⟩ := Option.map_eq_some_iff.mp here
    simp only [if_true] at changed
    subst changed
    exact mine old there
  · obtain ⟨old,there,changed⟩ := Option.map_eq_some_iff.mp here
    simp only [same,if_false] at changed
    subst changed
    have kept := own.rows i old there
    exact ⟨fun held => grown i old (kept.answered held),kept.result⟩

theorem ownResult (own : Own past id job) {result : RefreshResult} (plain : result.charged = false) :
    Own past id (job.result result) := by
  have admits (status : Nat) : result.admits status := by cases result <;> trivial
  have at_ : (job.result result).entries = job.entries.modify job.position fun entry => {entry with result := result} :=
    recordEntries _
  refine ⟨ownRecord (fun _ _ held => held) own _ fun row here => ?_,fun decision => ?_,fun active row here => ?_,?_⟩
  · refine ⟨fun held => (own.rows _ row here).answered (.inl ?_),admits _⟩
    rcases held with status | charged
    · exact status
    · simp [plain] at charged
  · obtain ⟨row,here,answered,calls⟩ := own.decided decision
    refine ⟨{row with result := result},?_,answered,calls⟩
    change (job.result result).entries[job.position]? = _
    rw [at_,List.getElem?_modify_eq,here]
    rfl
  · change (job.result result).entries[job.position]? = some row at here
    rw [at_,List.getElem?_modify_eq] at here
    obtain ⟨old,_,changed⟩ := Option.map_eq_some_iff.mp here
    rw [← changed]
    exact plain
  · rw [show (job.result result).scanned = job.scanned from recordScanned _]
    exact own.unscanned

theorem ownAdvance (own : Own past id job) (undecided : job.decision = false) (idle : job.active = false)
    (found : Found) : Own past id (job.advance found) := by
  refine ⟨own.rows,fun decision => ?_,fun active => ?_,fun _ => undecided⟩
  · exact absurd (show job.decision = true from decision) (by simp [undecided])
  · exact absurd (show job.active = true from active) (by simp [idle])

theorem ownJudged (own : Own past id job) (decided : job.decision = true) (idle : job.active = false) (rc : Rc)
    (found : Found) : Own past id ((({job.result (decisionResult rc) with decision := false} : RefreshJob)).advance found) := by
  obtain ⟨row,here,answered,calls⟩ := own.decided decided
  have judged : Own past id {job.result (decisionResult rc) with decision := false} := by
    refine ⟨?_,fun decision => Bool.noConfusion decision,fun active => ?_,fun _ => rfl⟩
    · refine ownRecord (fun _ _ held => held) own _ fun row' here' => ?_
      cases Option.some.inj (here.symm.trans here')
      refine ⟨fun _ => answered,?_⟩
      change (decisionResult rc).admits row.status
      unfold decisionResult
      split
      · exact calls
      · split <;> trivial
    · exact absurd (show job.active = true from active) (by simp [idle])
  exact ownAdvance judged rfl idle found

theorem ownScanned (own : Own past id job) {scan : RefreshScan} (here : job.scan = some scan)
    (open_ : scan.complete = false) (idle : job.active = false) (now : UInt64) (answer : ScanAnswer)
    (task : RefreshTask) : Own past id {job with
      scan := some (refreshScan now job.deadline answer scan).2
      task := task} := by
  have undecided : job.decision = false := own.unscanned (by simp [RefreshJob.scanned,here,open_])
  refine ⟨fun i row there => ?_,fun decision => absurd (show job.decision = true from decision) (by simp [undecided]),
    fun active => absurd (show job.active = true from active) (by simp [idle]),fun _ => undecided⟩
  have there : (refreshScan now job.deadline answer scan).2.entries[i]? = some row := there
  rcases scanRows now job.deadline answer scan with same | blank
  · rw [same] at there
    exact own.rows i row (by simpa [RefreshJob.entries,here] using there)
  · obtain ⟨status,result⟩ := blank row (List.mem_of_getElem? there)
    exact ⟨fun held => by simp [status,result,RefreshResult.charged] at held,by rw [result]; trivial⟩

theorem ownPrepared (own : Own past id job) (absent : job.scan = none) (idle : job.active = false)
    (threaded : Bool) : Own past id {job with
      scan := some ⟨[],false,false,false,false,false⟩
      threaded := threaded} :=
  ⟨by simp [RefreshJob.entries],fun decision => absurd (show job.decision = true from decision)
    (by simp [own.unscanned (by simp [RefreshJob.scanned,absent])]),
    fun active => absurd (show job.active = true from active) (by simp [idle]),
    fun _ => own.unscanned (by simp [RefreshJob.scanned,absent])⟩

theorem mapEntryPlain (name : Name) (z : Zone) (found : Found) : (mapEntry name z found job).1.charged = false := by
  unfold mapEntry
  split
  · split
    · rfl
    split
    · rfl
    dsimp only
    split
    · rfl
    split <;> rfl
  · rfl

theorem ownProbe {name : Name} {slot : Slot} {alive : Pid → Bool} {answer : ProbeAnswer} {z : Zone} {found : Found}
    {q : Queue} (own : Own past id job) (pending : ∀ row, job.entries[job.position]? = some row → row.result = .pending) :
    Own past id (refreshProbe name slot alive answer z found job q).2.1 := by
  obtain ⟨⟨uri,etag,modified,same⟩,_⟩ := @mapEntrySpec job name z found
  have mapped : Own past id (mapEntry name z found job).2 := by
    rw [same]
    exact ownScanSame own rfl rfl rfl fun active => active
  have credited (credit : Bool) : Own past id {(mapEntry name z found job).2 with credit := credit} :=
    ownScanSame mapped rfl rfl rfl fun active => active
  unfold refreshProbe
  dsimp only
  split
  · exact ownResult mapped (mapEntryPlain name z found)
  · rcases @takeCreditJob (mapEntry name z found job).2 slot alive answer.locked q with
      ⟨granted,taken,_⟩ | ⟨refused,kept,_⟩
    · rw [if_neg (by simp [granted])]
      split
      · rw [releaseCreditJob,taken]
        exact credited false
      split
      · rw [releaseCreditJob,taken]
        exact credited false
      · rw [taken]
        refine ⟨(credited true).rows,(credited true).decided,fun _ row here => ?_,(credited true).unscanned⟩
        have there : job.entries[job.position]? = some row := by
          rw [same] at here
          exact here
        rw [pending row there]
        rfl
    · rw [if_pos refused,kept]
      exact mapped

theorem ownDone (own : Own past id job) (active : job.active = true) {entry : RefreshEntry} {probe : Nat}
    (undecided : job.decision = false) (here : job.entries[job.position]? = some entry)
    (scanned : job.scanned = true)
    (sent : .dispatched id probe job.position entry.found ∈ past) (slot : Slot) (status : Nat) (q : Queue) :
    Own (past ++ [.completed id probe status]) id (refreshDone slot status job q).1 := by
  have plain := own.probing active entry here
  let idle : RefreshJob := {job with active := false, credit := false}
  let row : RefreshEntry := {entry with status := status}
  let marked : RefreshJob := idle.record fun entry => {entry with status := status}
  have answered : ProbeAnswered (past ++ [.completed id probe status]) id job.position row :=
    ⟨probe,(List.singleton_sublist.mpr sent).append (.refl _)⟩
  have grown (i : Nat) (row : RefreshEntry) (held : ProbeAnswered past id i row) :
      ProbeAnswered (past ++ [.completed id probe status]) id i row := answeredGrows held _
  have owned : Own past id idle := ownScanSame own rfl rfl rfl fun active => Bool.noConfusion active
  have there : marked.entries[marked.position]? = some row := by
    change marked.entries[job.position]? = some row
    rw [show marked.entries = job.entries.modify job.position _ from recordEntries _,List.getElem?_modify_eq,here]
    rfl
  have known : marked.scanned = true := (recordScanned _).trans scanned
  have base : Own (past ++ [.completed id probe status]) id marked := by
    refine ⟨ownRecord grown owned _ fun old here' => ?_,fun decision => ?_,fun active => Bool.noConfusion active,
      fun unscanned => ?_⟩
    · cases Option.some.inj (here.symm.trans here')
      refine ⟨fun _ => answered,?_⟩
      change entry.result.admits status
      revert plain
      cases entry.result with
      | kept | transport | status | invalidated => exact fun plain => Bool.noConfusion plain
      | _ => exact fun _ => trivial
    · exact absurd (show job.decision = true from decision) (by simp [undecided])
    · simp [known] at unscanned
  have result_ (result : RefreshResult) (admits : result.admits status) :
      Own (past ++ [.completed id probe status]) id (marked.result result) := by
    refine ⟨ownRecord (fun _ _ held => held) base _ fun old here' => ?_,fun decision => ?_,
      fun active => Bool.noConfusion active,fun unscanned => ?_⟩
    · cases Option.some.inj (there.symm.trans here')
      exact ⟨fun _ => answered,admits⟩
    · exact absurd (show job.decision = true from decision) (by simp [undecided])
    · rw [show (marked.result result).scanned = marked.scanned from recordScanned _,known] at unscanned
      contradiction
  unfold refreshDone
  rw [if_neg (by simp [active])]
  simp only [releaseCreditJob]
  refine ownWait ?_
  change Own _ id (marked.settle status)
  unfold RefreshJob.settle
  split
  · exact base
  split
  · rename_i fresh
    exact result_ .kept fresh
  rename_i changed
  split
  · rename_i calls
    have calls : status = 200 ∨ status = 404 ∨ status = 410 := by simpa [or_assoc] using calls
    refine ⟨base.rows,fun _ => ⟨row,there,answered,calls⟩,base.probing,fun unscanned => ?_⟩
    exact Bool.noConfusion (known.symm.trans unscanned)
  · rename_i other
    simp only [Bool.or_eq_true,decide_eq_true_eq,not_or] at other
    split
    · rename_i silent
      exact result_ .transport silent
    · rename_i spoken
      exact result_ .status ⟨spoken,changed,other.1.1,other.1.2,other.2⟩

end jobs

def Pages.Owned (past : List RefreshOutput) (s : Pages) : Prop :=
  ∀ page ∈ s.pages, page.job.request = true → Own past page.id page.job

section steps
variable {config : Config} {p : Process} {page : Page} {a : StepAnswer} {s : Pages} {past : List RefreshOutput}
  {job : RefreshJob} (owned : s.Owned past)

include owned

theorem ownedGrows (out : List RefreshOutput) : s.Owned (past ++ out) :=
  fun other member alive => ownGrows (owned other member alive) out

theorem ownedQuiet : s.Owned (past ++ []) := ownedGrows owned []

theorem ownedRevise {f : Page → Page} (out : List RefreshOutput) (mine : ∀ other ∈ s.pages, other.id = page.id →
    (f other).id = page.id ∧ ((f other).job.request = true → Own (past ++ out) page.id (f other).job)) :
    (s.revise page.id f).Owned (past ++ out) := by
  intro other member
  obtain ⟨old,there,rfl⟩ := List.mem_map.mp member
  split
  · rename_i here
    obtain ⟨same,own⟩ := mine old there (by simpa using here)
    rw [same]
    exact own
  · exact fun alive => ownGrows (owned old there alive) out

theorem ownedSet (out : List RefreshOutput) (own : job.request = true → Own (past ++ out) page.id job) :
    (s.setJob page.id job).Owned (past ++ out) :=
  ownedRevise owned out fun _ _ same => ⟨same,own⟩

theorem ownedClose (out : List RefreshOutput) : (s.close page).Owned (past ++ out) :=
  fun other member alive => ownGrows (owned other (List.mem_filter.mp member).1 alive) out

variable (own : Own past page.id job) (idle : job.active = false)
include own idle

theorem ownedProbe {entry : RefreshEntry} (undecided : job.decision = false)
    (here : job.entries[job.position]? = some entry) (pending : entry.result = .pending) :
    (probeStep config p page a job entry.found s).1.Owned
      (past ++ (probeStep config p page a job entry.found s).2) := by
  have mine := @ownProbe past page.id job (config.names job.conf.ns) p.slot (s.system.alive a.claims) a.probe
    (s.system.zones job.conf.ns) entry.found s.system.queue own fun row there => by
      rw [← Option.some.inj (here.symm.trans there)]
      exact pending
  have spec := @refreshProbeSpec (config.names job.conf.ns) p.slot (s.system.alive a.claims) a.probe
    (s.system.zones job.conf.ns) entry.found job s.system.queue
  unfold probeStep
  dsimp only
  generalize refreshProbe (config.names job.conf.ns) p.slot (s.system.alive a.claims) a.probe
    (s.system.zones job.conf.ns) entry.found job s.system.queue = outcome at spec mine
  cases spec with
  | @declined result uri etag modified job' q final same =>
    simp only [reduceCtorEq,if_false]
    refine ownedSet (s := s.setQueue q) owned [] fun _ => ownGrows (ownAdvance mine ?_ ?_ entry.found) []
    · rw [same]
      exact undecided
    · rw [same]
      exact idle
  | @again uri etag modified job' q same =>
    simp only [reduceCtorEq,if_false,if_true]
    exact ownedSet (s := s.setQueue q) owned [] fun _ => ownGrows (ownWait mine) []
  | @failed uri etag modified job' q same =>
    simp only [reduceCtorEq,if_false,if_true]
    have error : Own past page.id (job'.result .error) := ownResult mine rfl
    refine ownedSet (s := s.setQueue q) owned [] fun _ => ownGrows (ownAdvance error ?_ ?_ entry.found) []
    · rw [same]
      exact undecided
    · rw [same]
      exact idle
  | @sent uri etag modified job' q mapped same =>
    simp only [if_true]
    exact ownedRevise (s := s.setQueue q) owned _ fun other _ mineId => ⟨mineId,fun _ => ownGrows (ownWait mine) _⟩

theorem ownedEntry {entry : RefreshEntry} (here : job.entries[job.position]? = some entry) :
    (entryStep config p page a job entry s).1.Owned (past ++ (entryStep config p page a job entry s).2) := by
  unfold entryStep
  split
  · rename_i decided
    obtain ⟨⟨sub,_⟩,_⟩ := @refreshInvalidateSpec config p page a job entry.found s
    dsimp only
    generalize refreshInvalidate config p page a job entry.found s = outcome at sub
    obtain ⟨rc,left,out⟩ := outcome
    dsimp only at sub ⊢
    have owned : left.Owned past := fun other member => owned other (sub.mem member)
    split
    · exact ownedSet owned out fun _ => ownGrows (ownWait own) out
    · exact ownedSet owned out fun _ => ownGrows (ownJudged own decided idle rc entry.found) out
  · rename_i undecided
    have undecided : job.decision = false := by simpa using undecided
    split
    · rename_i pending
      exact ownedProbe owned own idle undecided here pending
    · exact ownedSet owned [] fun _ => ownGrows (ownAdvance own undecided idle entry.found) []

theorem ownedScanned {scan : RefreshScan} (same : job.scan = some scan) :
    (scannedStep config p page a job scan s).1.Owned (past ++ (scannedStep config p page a job scan s).2) := by
  unfold scannedStep
  split
  · exact ownedClose owned _
  · split
    · exact ownedClose owned _
    · rename_i entry here
      exact ownedEntry owned own idle (by simpa [RefreshJob.entries,same] using here)

theorem ownedScan {scan : RefreshScan} (same : job.scan = some scan) :
    (scanStep config p page a job scan s).1.Owned (past ++ (scanStep config p page a job scan s).2) := by
  unfold scanStep
  split
  · exact ownedScanned owned own idle same
  rename_i open_
  simp only [Bool.or_eq_true,not_or,Bool.not_eq_true] at open_
  split
  · refine ownedSet owned [] fun _ => ownGrows ?_ []
    exact ownScanSame own rfl rfl rfl fun active => active
  · have sliced := ownScanned own same open_.1.1 idle a.now a.scan job.task
    dsimp only
    split
    · exact ownedSet owned [] fun _ => ownGrows (ownWait sliced) []
    · exact ownedScanned owned sliced idle rfl

omit own idle in
theorem ownedRefresh (own : page.job.request = true → Own past page.id page.job) :
    (refreshStep config p page a s).1.Owned (past ++ (refreshStep config p page a s).2) := by
  obtain ⟨_,_,scanning⟩ := @expireKeeps page.job a.now p.leaving
  unfold refreshStep
  dsimp only
  split
  · rename_i gone
    exact ownedSet owned [] fun alive => by simp [alive] at gone
  rename_i alive
  have own : Own past page.id (page.job.expire a.now p.leaving) :=
    ownExpire (own (by simpa using alive)) a.now p.leaving
  split
  · exact ownedSet owned [] fun _ => ownGrows (ownWait own) []
  rename_i free
  simp only [Bool.or_eq_true,not_or,Bool.not_eq_true] at free
  split
  · exact ownedClose owned _
  split
  · exact ownedSet owned [] fun _ => ownGrows (ownWait own) []
  split
  · rename_i scan same
    exact ownedScan owned own free.2 same
  · rename_i absent
    split
    · exact ownedClose owned _
    · rename_i job prepared
      obtain ⟨threaded,rfl⟩ := preparedFresh prepared
      dsimp only
      exact @ownedScan config p page a {s with current := Function.update s.current page.pid (some page.id)} past _
        owned (ownPrepared own absent free.2 threaded) free.2 _ rfl

end steps

section events
variable {config : Config} {p : Process} {page : Page} {s : Pages} {past : List RefreshOutput}

theorem ownedComplete (owned : s.Owned past) (own : Own past page.id page.job)
    (live : Live config page.job.conf page.id past page.progress) {probe : Nat} (status : Nat)
    (last : probe + 1 = page.sent) :
    (completeStep p page probe status s).1.Owned (past ++ (completeStep p page probe status s).2) := by
  have flight : page.flying = if page.job.active then [page.sent - 1] else [] := live.flight
  unfold completeStep
  refine ownedRevise (s := s.setQueue (refreshDone p.slot status page.job s.system.queue).2) owned _
    fun other _ same => ⟨same,fun _ => ?_⟩
  cases active : page.job.active with
  | false =>
    have empty : page.flying = [] := by simpa [active] using flight
    have rests : refreshDone p.slot status page.job s.system.queue = (page.job,s.system.queue) := by
      simp [refreshDone,active]
    change Own _ page.id (refreshDone p.slot status page.job s.system.queue).1
    rw [rests]
    exact ownGrows own _
  | true =>
    have flies : probe ∈ page.flying := by simp [flight,active,← last]
    obtain ⟨undecided,entry,here,_,sent,_⟩ := live.probing active
    have mine : page.progress.sent - 1 = probe := by
      change page.sent - 1 = probe
      rw [← last]
      rfl
    rw [mine] at sent
    have scanned : page.job.scanned = true := by
      by_contra unscanned
      have unscanned : page.job.scanned = false := by simpa using unscanned
      have idle : page.job.active = false := (live.unscanned unscanned).2.1
      simp [idle] at active
    rw [if_pos flies]
    exact ownDone own active undecided here scanned sent p.slot status s.system.queue

theorem ownedPage (owned : s.Owned past) (member : page ∈ s.pages)
    (live : page.job.request = true → Live config page.job.conf page.id past page.progress) (e : RefreshEvent) :
    (pageStep config false p page s e).1.Owned (past ++ (pageStep config false p page s e).2) := by
  have own := owned page member
  have turn := pageCases config false p page s e
  generalize pageStep config false p page s e = out at turn ⊢
  cases turn with
  | idle => exact ownedQuiet owned
  | @timer id a =>
    refine @ownedRefresh config p {page with job := {page.job with timer := false}} a s past owned fun alive => ?_
    exact ownScanSame (own alive) rfl rfl rfl fun active => active
  | @slice id now answer scan posted open_ =>
    refine ownedSet owned [] fun alive => ownGrows ?_ []
    have running : page.progress.posted = true := by simp [Page.progress,RefreshJob.progress,posted]
    have unscanned : page.job.scanned = false := ((live alive).posted running).1
    have idle : page.job.active = false := ((live alive).unscanned unscanned).2.1
    exact ownScanned (own alive) open_ (by simpa [RefreshJob.scanned,open_] using unscanned) idle now answer _
  | closed gone => exact ownedClose owned _
  | @told id a ran alive =>
    refine @ownedRefresh config p {page with job := _} a s past owned fun alive => ?_
    exact ownScanSame (own alive) rfl rfl rfl fun active => active
  | rejected alive flying => exact ownedSet owned _ fun _ => ownGrows (ownResult (own alive) rfl) _
  | @completed id probe status called =>
    obtain ⟨alive,last⟩ := calledLast called
    exact ownedComplete owned (own alive) (live alive) status last
  | left_ => exact ownedClose (s := s.setQueue (refreshCleanup p.slot page.job s.system.queue).2) owned []
  | @cut id job kept =>
    have gone : job.request = false := cleanupLeaves kept
    exact ownedRevise (s := s.setQueue (refreshCleanup p.slot page.job s.system.queue).2) owned []
      fun other _ same => ⟨same,fun alive => by simp [Page.cut,gone] at alive⟩

theorem ownedStep (sound : s.Sound config past) (owned : s.Owned past) (e : RefreshEvent) :
    (s.step config false e).1.Owned (past ++ (s.step config false e).2) := by
  have turn := pagesCases config false s e
  generalize s.step config false e = out at turn ⊢
  cases turn with
  | idle => exact ownedQuiet owned
  | worked => exact fun other member alive => ownGrows (owned other (List.mem_filter.mp member).1 alive) []
  | @started pid conf deadline after p running mine =>
    intro other member alive
    rcases List.mem_append.mp member with old | new
    · exact ownGrows (owned other old alive) []
    · rw [List.mem_singleton.mp new]
      exact ownFresh conf deadline after
  | visited member called running mine present => exact ownedPage owned member (sound.live _ member) e

end events

section credit
variable {config : Config} {past : List RefreshOutput}

theorem moveHeld {conf : RefreshConf} {id : Nat} {g g' : Progress} {out : List RefreshOutput}
    (live : Live config conf id past g) (move : Move config conf id g out g') (held : g.credit = true) :
    (g'.credit = true ∧ g'.flying = g.flying) ∨ ∃ probe status, .completed id probe status ∈ out ∧ probe ∈ g.flying := by
  have active : g.active = true := live.credit ▸ held
  cases move with
  | settle flies => exact .inr ⟨_,_,List.mem_singleton_self _,flies⟩
  | dispatch idle => simp [idle] at active
  | pass idle => simp [idle] at active
  | judge decided => simp [(live.probing active).1] at decided
  | _ => exact .inl ⟨held,rfl⟩

theorem traceHeld {conf : RefreshConf} {id : Nat} {g g' : Progress} {out : List RefreshOutput}
    (live : Live config conf id past g) (trace : Trace (Move config conf id) g out g') (held : g.credit = true) :
    g'.credit = true ∨ ∃ probe status, .completed id probe status ∈ out ∧ probe ∈ g.flying := by
  induction trace generalizing past with
  | done => exact .inl held
  | more turn _ ih =>
    rcases moveHeld live turn held with ⟨still,flying⟩ | ⟨probe,status,said,flies⟩
    · rcases ih (moveLive live turn) still with kept | ⟨probe,status,said,flies⟩
      · exact .inl kept
      · exact .inr ⟨probe,status,List.mem_append_right _ said,flying ▸ flies⟩
    · exact .inr ⟨probe,status,List.mem_append_left _ said,flies⟩

def Credited (s : Pages) (r : Pages × List RefreshOutput) : Prop :=
  ∀ page ∈ s.pages, ∀ page' ∈ r.1.pages, page'.id = page.id → page'.job.request = true →
    page.job.credit = true → page'.job.credit = false →
    ∃ probe status, .completed page.id probe status ∈ r.2 ∧ page.flying = [probe]

variable {s : Pages} (sound : s.Sound config past)
include sound

theorem creditSame {old new : Page} (there : old ∈ s.pages) (stays : new ∈ s.pages) (same : new.id = old.id) :
    new.job.credit = old.job.credit := by
  rw [List.inj_on_of_nodup_map sound.ids stays there same]

theorem creditedSame {r : Pages × List RefreshOutput} (sub : ∀ page ∈ r.1.pages, page ∈ s.pages) : Credited s r := by
  intro page member page' member' same _ held free
  rw [creditSame sound member (sub page' member') same,held] at free
  contradiction

theorem effectCredited {page : Page} (member : page ∈ s.pages) {r : Pages × List RefreshOutput}
    (effect : PageEffect config s.pages s.opened page r) : Credited s r := by
  -- A page of before the event, or the one the event is about.
  have source {page' : Page} {left : List Page} (sub : left.Sublist s.pages) {other : Page}
      (inside : other ∈ left.map fun other => if other.id == page.id then page' else other) :
      other = page' ∨ (other ∈ s.pages ∧ other.id ≠ page.id) := by
    obtain ⟨old,there,rfl⟩ := List.mem_map.mp inside
    split
    · exact .inl rfl
    · rename_i apart
      exact .inr ⟨sub.mem there,by simpa using apart⟩
  cases effect with
  | goes alive opened id conf sub pages moves =>
    intro old there new inside same _ held free
    rcases source sub (pages ▸ inside) with rfl | ⟨stays,_⟩
    · have one : page = old := List.inj_on_of_nodup_map sound.ids member there (id.symm.trans same)
      subst one
      have live := sound.live page member alive
      rcases traceHeld live moves held with still | ⟨probe,status,said,flies⟩
      · have still : new.job.credit = true := still
        rw [free] at still
        contradiction
      · refine ⟨probe,status,said,?_⟩
        have flight : page.flying = if page.job.active then [page.sent - 1] else [] := live.flight
        have flies : probe ∈ page.flying := flies
        split at flight
        · rw [flight] at flies ⊢
          rw [List.mem_singleton.mp flies]
        · simp [flight] at flies
    · rw [creditSame sound there stays same,held] at free
      contradiction
  | cut opened id sub pages gone =>
    intro old there new inside same alive held free
    rcases source sub (pages ▸ inside) with rfl | ⟨stays,_⟩
    · rw [gone] at alive
      contradiction
    · rw [creditSame sound there stays same,held] at free
      contradiction
  | ends opened sub pages =>
    exact creditedSame sound fun other inside => sub.mem (List.mem_filter.mp (pages ▸ inside)).1

theorem stepCredited (e : RefreshEvent) : Credited s (s.step config false e) := by
  have turn := pagesCases config false s e
  generalize s.step config false e = out at turn ⊢
  cases turn with
  | idle => exact creditedSame sound fun _ member => member
  | worked => exact creditedSame sound fun _ member => (List.mem_filter.mp member).1
  | started running mine =>
    intro page member page' member' same _ held free
    rcases List.mem_append.mp member' with old | new
    · exact creditedSame (r := (s,[])) sound (fun _ member => member) page member page' old same ‹_› held free
    · rw [List.mem_singleton.mp new] at same
      have before := sound.count page member
      exact absurd before (by simp [← same])
  | visited member called running mine present =>
    refine effectCredited sound member (pageEffect (fun other there same => ?_) (sound.live _ member) e)
    exact List.inj_on_of_nodup_map sound.ids there member same

end credit

def Pages.timely (s : Pages) : RefreshEvent → Bool
  | .complete id probe _ => (s.find id).all fun page =>
    !(page.job.request && page.job.active && decide (probe < page.sent)) || probe + 1 == page.sent
  | _ => true

section timely
variable {config : Config} {p : Process} {page : Page} {s : Pages} {past : List RefreshOutput}

theorem completeRests (sound : s.Sound config past) (member : page ∈ s.pages) (alive : page.job.request = true)
    (idle : page.job.active = false) (probe status : Nat) : completeStep p page probe status s = (s,[]) := by
  have flight : page.flying = if page.job.active then [page.sent - 1] else [] := (sound.live page member alive).flight
  have empty : page.flying = [] := by simpa [idle] using flight
  have rests : refreshDone p.slot status page.job s.system.queue = (page.job,s.system.queue) := by
    simp [refreshDone,idle]
  have same : (s.pages.map fun other => if other.id == page.id then page.finish probe page.job else other) = s.pages := by
    conv_rhs => rw [← List.map_id s.pages]
    refine List.map_congr_left fun other inside => ?_
    split
    · rename_i mine
      rw [List.inj_on_of_nodup_map sound.ids inside member (by simpa using mine)]
      unfold Page.finish
      rw [empty,List.erase_nil,← empty]
      rfl
    · rfl
  have revised : (s.revise page.id (Page.finish probe page.job)).pages = s.pages := by
    refine (reviseSole fun other inside mine => ?_).trans same
    rw [List.inj_on_of_nodup_map sound.ids inside member mine]
  unfold completeStep
  rw [rests,empty]
  exact Prod.ext (congrArg (fun pages => {s with pages := pages}) revised) (by simp)

theorem timelyStep (sound : s.Sound config past) {e : RefreshEvent} (timely : s.timely e = true) :
    s.step config true e = s.step config false e := by
  cases e with
  | complete id probe status =>
    simp only [Pages.step,Pages.visit,RefreshEvent.page]
    split
    · rfl
    · rename_i page found
      split
      · rfl
      split
      · rfl
      simp only [pageStep,Page.completes]
      simp only [Pages.timely,found,Option.all_some] at timely
      rcases Bool.eq_false_or_eq_true page.job.request with alive | gone
      · by_cases last : probe + 1 = page.sent
        · simp [last]
        · by_cases known : probe < page.sent
          · have idle : page.job.active = false := by simpa [alive,known,last] using timely
            rw [completeRests sound (List.mem_of_find?_eq_some found) alive idle]
            simp
          · simp [known]
      · simp [gone]
  | _ => rfl

theorem lateCredited (sound : s.Sound config past) (found : s.find page.id = some page)
    (there : s.system.find page.pid = some p) (runs : p.exited = false) {probe : Nat} (status : Nat)
    (late : s.timely (.complete page.id probe status) = false) :
    ¬Credited s (s.step config true (.complete page.id probe status)) := by
  have member : page ∈ s.pages := List.mem_of_find?_eq_some found
  simp only [Pages.timely,found,Option.all_some,Bool.or_eq_false_iff,Bool.not_eq_false',Bool.and_eq_true,
    decide_eq_true_eq,beq_eq_false_iff_ne] at late
  obtain ⟨⟨⟨alive,active⟩,known⟩,earlier⟩ := late
  have live := sound.live page member alive
  have credit : page.job.credit = page.job.active := live.credit
  have flight : page.flying = if page.job.active then [page.sent - 1] else [] := live.flight
  have landed : probe ∉ page.flying := by
    simp only [flight,active,if_true,List.mem_singleton]
    omega
  have step : s.step config true (.complete page.id probe status) =
      ((s.setQueue (refreshDone p.slot status page.job s.system.queue).2).revise page.id
        (Page.finish probe (refreshDone p.slot status page.job s.system.queue).1),[]) := by
    simp [Pages.step,Pages.visit,RefreshEvent.page,found,there,runs,pageStep,Page.completes,alive,known,completeStep,
      landed]
  obtain ⟨request,free⟩ : (refreshDone p.slot status page.job s.system.queue).1.request = true ∧
      (refreshDone p.slot status page.job s.system.queue).1.credit = false := by
    unfold refreshDone
    rw [if_neg (by simp [active])]
    simp only [releaseCreditJob]
    unfold RefreshJob.settle
    split
    · exact ⟨alive,rfl⟩
    split
    · exact ⟨alive,rfl⟩
    split <;> exact ⟨alive,rfl⟩
  intro credited
  rw [step] at credited
  obtain ⟨_,_,said,_⟩ := credited page member (page.finish probe (refreshDone p.slot status page.job s.system.queue).1)
    (List.mem_map.mpr ⟨page,member,by simp⟩) rfl request (credit.trans active) free
  simp at said

end timely

/- To whom a run charges what its probes bring. -/
structure ProbesCharged (config : Config) (start : Pages) (events : List RefreshEvent) : Prop where
  rows : ∀ page ∈ ((refreshMachine config true).after start events).pages, page.job.request = true →
    ∀ (i : Nat) row, page.job.entries[i]? = some row →
      RowOwn ((refreshMachine config true).outputs start events) page.id i row
  decided : ∀ page ∈ ((refreshMachine config true).after start events).pages, page.job.request = true →
    page.job.decision = true → ∃ row, page.job.entries[page.job.position]? = some row ∧
      ProbeAnswered ((refreshMachine config true).outputs start events) page.id page.job.position row ∧
      (row.status = 200 ∨ row.status = 404 ∨ row.status = 410)
  flying : ∀ page ∈ ((refreshMachine config true).after start events).pages, page.job.request = true →
    (page.job.credit = true ↔ page.flying ≠ []) ∧ ∀ probe ∈ page.flying, ∃ row,
      page.job.entries[page.job.position]? = some row ∧
      .dispatched page.id probe page.job.position row.found ∈ (refreshMachine config true).outputs start events
  credit : ∀ front e back, events = front ++ e :: back → Credited ((refreshMachine config true).after start front)
    ((refreshMachine config true).step ((refreshMachine config true).after start front) e)

theorem timelyRun {config : Config} {start : Pages} {past : List RefreshOutput} (sound : start.Sound config past)
    (owned : start.Owned past) {events : List RefreshEvent}
    (timely : (refreshMachine config true).along Pages.timely start events = true) :
    ((refreshMachine config true).after start events).Sound config
      (past ++ (refreshMachine config true).outputs start events) ∧
    ((refreshMachine config true).after start events).Owned
      (past ++ (refreshMachine config true).outputs start events) := by
  refine (refreshMachine config true).tracksAlong (A := Pages.timely) (P := fun past s => s.Sound config past ∧ s.Owned past)
    ⟨sound,owned⟩ (fun past s e timely ⟨sound,owned⟩ => ?_) timely
  change Pages.Sound config (past ++ (s.step config true e).2) _ ∧ Pages.Owned (past ++ (s.step config true e).2) _
  rw [show (refreshMachine config true).step s e = s.step config false e from timelyStep sound timely,
    timelyStep sound timely]
  exact ⟨(stepSound sound e).1,ownedStep sound owned e⟩

/- In a run without such a completion everything is charged to its own probe. -/
theorem timelyCharged (config : Config) (maxSize : Nat) (paths : List (Nat × Bytes)) (epochs : Nat → Epoch)
    (events : List RefreshEvent)
    (timely : (refreshMachine config true).along Pages.timely (refreshInit maxSize paths epochs) events = true) :
    ProbesCharged config (refreshInit maxSize paths epochs) events := by
  have start : (refreshInit maxSize paths epochs).Sound config [] :=
    ⟨by simp [refreshInit],by simp [refreshInit],by simp,by simp [refreshInit]⟩
  have none_ : (refreshInit maxSize paths epochs).Owned [] := by simp [Pages.Owned,refreshInit]
  obtain ⟨sound,owned⟩ := timelyRun start none_ timely
  refine ⟨fun page member alive => (owned page member alive).rows,fun page member alive => (owned page member alive).decided,
    fun page member alive => ?_,fun front e back split => ?_⟩
  · have live := sound.live page member alive
    have flight : page.flying = if page.job.active then [page.sent - 1] else [] := live.flight
    have credit : page.job.credit = page.job.active := live.credit
    cases active : page.job.active with
    | false => simp [flight,credit,active]
    | true =>
      obtain ⟨_,row,here,_,sent,_⟩ := live.probing active
      refine ⟨by simp [flight,credit,active],fun probe flies => ⟨row,here,?_⟩⟩
      have last : probe = page.sent - 1 := by simpa [flight,active] using flies
      exact last ▸ sent
  · subst split
    rw [(refreshMachine config true).alongAppend] at timely
    obtain ⟨before,now⟩ := Bool.and_eq_true_iff.mp timely
    obtain ⟨now,_⟩ := Bool.and_eq_true_iff.mp now
    obtain ⟨sound,_⟩ := timelyRun start none_ before
    rw [show (refreshMachine config true).step _ e = Pages.step config true _ e from rfl,timelyStep sound now]
    exact stepCredited sound e

def probedEntry (c : UInt8) : Found :=
  ⟨[48,c],generationEncode siteName siteEpoch 1 [47,c],⟨5,0,0,0,0,0,[],0,[]⟩⟩

def probedTurn : StepAnswer := ⟨0,fun _ => true,⟨true,true,false,false,false⟩,false,
  ⟨.ok,[probedEntry 97,probedEntry 98],false⟩,⟨true,true,true⟩,[],⟨true,true,some 5,[some 8,some 9]⟩,true⟩

def probedConfig : Config := ⟨posix,fun _ => siteName⟩

def probedInit : Pages := refreshInit 4 [(1,[47,99])] fun _ => siteEpoch

def probedPage : List RefreshEvent := [.worker (.start 7 0 false [0]),.start 7 ⟨0,[],[47,99],[],[]⟩ 1000 [],
  .timer 0 probedTurn,.complete 0 0 404,.complete 0 0 404,.timer 0 probedTurn,.timer 0 probedTurn]

def Pages.statuses (s : Pages) : List (List Nat) := s.pages.map fun page => page.job.entries.map RefreshEntry.status

theorem timelyChargedTwice : ProbesCharged probedConfig probedInit (probedPage ++ [.complete 0 1 304]) ∧
    ((refreshMachine probedConfig true).after probedInit (probedPage ++ [.complete 0 1 304])).statuses = [[404,304]] :=
  ⟨timelyCharged probedConfig 4 [(1,[47,99])] (fun _ => siteEpoch) _ (by decide +kernel),by decide +kernel⟩

def RefreshOutput.sending : RefreshOutput → Option (Nat × Nat)
  | .dispatched _ probe position _ => some (probe,position)
  | _ => none

def RefreshOutput.completion : RefreshOutput → Option Nat
  | .completed _ probe _ => some probe
  | _ => none

theorem lateCompletionCharged : ¬ProbesCharged probedConfig probedInit (probedPage ++ [.complete 0 0 404]) := by
  intro charged
  have seen : ((refreshMachine probedConfig true).after probedInit (probedPage ++ [.complete 0 0 404])).pages.any
      (fun page => page.job.request && page.job.entries[1]?.any fun row => row.status == 404) = true := by decide +kernel
  have sent : ((refreshMachine probedConfig true).outputs probedInit
      (probedPage ++ [.complete 0 0 404])).filterMap RefreshOutput.sending = [(0,0),(1,1)] := by decide +kernel
  have completed : ((refreshMachine probedConfig true).outputs probedInit
      (probedPage ++ [.complete 0 0 404])).filterMap RefreshOutput.completion = [0] := by decide +kernel
  obtain ⟨page,member,here⟩ := List.any_eq_true.mp seen
  obtain ⟨alive,here⟩ := Bool.and_eq_true_iff.mp here
  obtain ⟨row,there,status⟩ := (Option.any_eq_true _ _).mp here
  have status : row.status = 404 := by simpa using status
  obtain ⟨probe,sub⟩ := (charged.rows page member alive 1 row there).answered (.inl (by simp [status]))
  -- Only the probe 1 was sent for "/b", and it has not completed.
  have mine : (probe,1) ∈ [(0,0),(1,1)] := sent ▸ List.mem_filterMap.mpr ⟨_,sub.subset List.mem_cons_self,rfl⟩
  have answered : probe ∈ [0] := completed ▸ List.mem_filterMap.mpr
    ⟨_,sub.subset (List.mem_cons_of_mem _ List.mem_cons_self),rfl⟩
  cases List.mem_singleton.mp answered
  simp at mine

end CachePurge
