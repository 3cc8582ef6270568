import CachePurge.Refresh
import CachePurge.Workers

/-! Any number of REFRESH pages in the workers, each driven by its timer, its scan
thread, core's calls about its probes and the end of its request. Core runs the
guard of a probe only before it has called its completion; it may call the
completion again, and with late it does so even after the next dispatch. -/
namespace CachePurge
open General

structure Page where
  id : Nat
  pid : Pid
  job : RefreshJob
  -- Probes are numbered from 0; flying ones have not been completed yet.
  sent : Nat
  flying : List Nat
  deriving DecidableEq, Repr

namespace Page

def dispatch (job : RefreshJob) (page : Page) : Page :=
  {page with job := job, sent := page.sent + 1, flying := page.sent :: page.flying}

def finish (probe : Nat) (job : RefreshJob) (page : Page) : Page :=
  {page with job := job, flying := page.flying.erase probe}

def cut (job : RefreshJob) (page : Page) : Page := {page with job := job, flying := []}

end Page

structure Pages where
  system : System
  pages : List Page
  current : Pid → Option Nat
  opened : Nat

structure StepAnswer where
  now : UInt64
  claims : Pid → Bool
  prepare : PrepareAnswer
  posted : Bool
  scan : ScanAnswer
  probe : ProbeAnswer
  between : List WorkerEvent
  outcome : Outcome
  memory : Bool

inductive RefreshEvent where
  | worker (e : WorkerEvent)
  | start (pid : Pid) (conf : RefreshConf) (deadline : UInt64) (after : Bytes)
  | timer (id : Nat) (a : StepAnswer)
  | slice (id : Nat) (now : UInt64) (answer : ScanAnswer)
  | notify (id : Nat) (a : StepAnswer)
  | reject (id probe : Nat)
  | complete (id probe status : Nat)
  | disconnect (id : Nat)

inductive RefreshOutput where
  | dispatched (id probe position : Nat) (found : Found)
  | rejected (id probe : Nat)
  | completed (id probe status : Nat)
  | enqueued (id position : Nat) (conf : RefreshConf) (found : Found) (zone : Zone) (rc : Rc)
  | replied (id : Nat) (reply : RefreshReply)
  deriving DecidableEq, Repr

def WorkerEvent.foreign (pid : Pid) : WorkerEvent → Bool
  | .thread _ _ => true
  | e => e.pid != pid

namespace Pages

def find (s : Pages) (id : Nat) : Option Page := s.pages.find? fun page => page.id == id

def revise (s : Pages) (id : Nat) (f : Page → Page) : Pages :=
  {s with pages := s.pages.map fun page => if page.id == id then f page else page}

def setJob (s : Pages) (id : Nat) (job : RefreshJob) : Pages := s.revise id fun page => {page with job := job}

def setQueue (s : Pages) (q : Queue) : Pages := {s with system := {s.system with queue := q}}

/- ngx_http_cache_refresh_destroy -/
def close (s : Pages) (page : Page) : Pages :=
  {s with
    pages := s.pages.filter fun other => other.id != page.id
    current := if s.current page.pid = some page.id then Function.update s.current page.pid none
      else s.current}

def survive (s : Pages) : Pages :=
  let pages := s.pages.filter fun page => s.system.procs.any fun p => p.pid == page.pid
  {s with
    pages := pages
    current := fun pid => (s.current pid).filter fun id => pages.any fun page => page.id == id}

def work (config : Config) (s : Pages) (e : WorkerEvent) : Pages := {s with system := (s.system.step config e).1}.survive

end Pages

def RefreshJob.fresh (conf : RefreshConf) (deadline : UInt64) (after : Bytes) : RefreshJob where
  conf := conf
  request := true
  deadline := deadline
  timer := true
  scan := none
  threaded := false
  task := .idle
  position := 0
  scanning := false
  active := false
  credit := false
  decision := false
  timedOut := false
  after := after
  uri := []
  etag := []
  modified := none

def RefreshJob.purge (job : RefreshJob) (now : UInt64) (logical encoded : Bytes) : Purge where
  ready := true
  cachePath := job.conf.cachePath
  ns := some job.conf.ns
  key := logical
  purgeAll := false
  expected := some encoded
  poolName := job.conf.poolName
  protection := job.conf.protection
  now := now

def RefreshJob.advance (found : Found) (job : RefreshJob) : RefreshJob :=
  {job with after := found.hash, position := job.position + 1}.wait

def decisionResult (rc : Rc) : RefreshResult :=
  if rc = .ok then .invalidated else if rc = .declined then .replaced else .error

section step
variable (config : Config) (p : Process) (page : Page) (a : StepAnswer)

def refreshInvalidate (job : RefreshJob) (found : Found) (s : Pages) :
    Rc × Pages × List RefreshOutput :=
  match generationCurrent (config.names job.conf.ns) (s.system.zones job.conf.ns) found.key with
  | (.ok,some logical) =>
    let s := (a.between.filter (WorkerEvent.foreign p.pid)).foldl (Pages.work config) s
    let purge := job.purge a.now logical found.key
    let rc := (enqueue config.platform config.names (some p.slot) p.leaving purge a.outcome s.system.queue
      s.system.zones).1
    (rc,{s with system := (enqueueStep config p purge a.outcome s.system).1},
      [.enqueued page.id job.position job.conf found (s.system.zones job.conf.ns) rc])
  | _ => (.declined,s,[])

def replyStep (job : RefreshJob) (s : Pages) : Pages × List RefreshOutput :=
  (s.close page,[.replied page.id (refreshReply a.memory job)])

def probeStep (job : RefreshJob) (found : Found) (s : Pages) : Pages × List RefreshOutput :=
  let ns := job.conf.ns
  let outcome := refreshProbe (config.names ns) p.slot (s.system.alive a.claims) a.probe
    (s.system.zones ns) found job s.system.queue
  let s := s.setQueue outcome.2.2
  if outcome.1 = .ok then
    (s.revise page.id (Page.dispatch outcome.2.1.wait),[.dispatched page.id page.sent job.position found])
  else if outcome.1 = .again then (s.setJob page.id outcome.2.1.wait,[])
  else
    let job := if outcome.1 = .error then outcome.2.1.result .error else outcome.2.1
    (s.setJob page.id (job.advance found),[])

def entryStep (job : RefreshJob) (entry : RefreshEntry) (s : Pages) : Pages × List RefreshOutput :=
  if job.decision then
    let outcome := refreshInvalidate config p page a job entry.found s
    let s := outcome.2.1
    if outcome.1 = .again then (s.setJob page.id job.wait,outcome.2.2)
    else
      let job := {job.result (decisionResult outcome.1) with decision := false}
      (s.setJob page.id (job.advance entry.found),outcome.2.2)
  else if entry.result = .pending then probeStep config p page a job entry.found s
  else (s.setJob page.id (job.advance entry.found),[])

def scannedStep (job : RefreshJob) (scan : RefreshScan) (s : Pages) : Pages × List RefreshOutput :=
  if !scan.complete then replyStep page a {job with timedOut := scan.timedOut} s
  else match scan.entries[job.position]? with
    | none => replyStep page a job s
    | some entry => entryStep config p page a job entry s

def scanStep (job : RefreshJob) (scan : RefreshScan) (s : Pages) : Pages × List RefreshOutput :=
  if scan.complete || scan.failed || scan.timedOut then scannedStep config p page a job scan s
  else if job.threaded then
    (s.setJob page.id {job with
      scanning := a.posted
      task := if a.posted then .posted else .idle}.wait,[])
  else
    let outcome := refreshScan a.now job.deadline a.scan scan
    let job := {job with scan := some outcome.2}
    if outcome.1 = .again then (s.setJob page.id job.wait,[])
    else scannedStep config p page a job outcome.2 s

def refreshStep (s : Pages) : Pages × List RefreshOutput :=
  let job := page.job.expire a.now p.leaving
  if !page.job.request then (s.setJob page.id page.job,[])
  else if job.scanning || job.active then (s.setJob page.id job.wait,[])
  else if job.timedOut then replyStep page a job s
  else if (s.current page.pid).any fun id => id != page.id then (s.setJob page.id job.wait,[])
  else match job.scan with
    | some scan => scanStep config p page a job scan s
    | none =>
      let s := {s with current := Function.update s.current page.pid (some page.id)}
      match prepareScan a.prepare job with
      | none => (s.close page,[.replied page.id .internalError])
      | some job => match job.scan with
        | none => (s,[])
        | some scan => scanStep config p page a job scan s

end step

section events
variable (config : Config) (late : Bool)

def Page.completes (page : Page) (probe : Nat) : Bool :=
  probe < page.sent && (late || probe + 1 == page.sent)

theorem calledLast {page : Page} {probe : Nat} (called : (page.job.request && page.completes false probe) = true) :
    page.job.request = true ∧ probe + 1 = page.sent := by
  simp only [Page.completes,Bool.false_or,Bool.and_eq_true,decide_eq_true_eq,beq_iff_eq] at called
  exact ⟨called.1,called.2.2⟩

def completeStep (p : Process) (page : Page) (probe status : Nat) (s : Pages) :
    Pages × List RefreshOutput :=
  let outcome := refreshDone p.slot status page.job s.system.queue
  ((s.setQueue outcome.2).revise page.id (Page.finish probe outcome.1),
    if probe ∈ page.flying then [.completed page.id probe status] else [])

def pageStep (p : Process) (page : Page) (s : Pages) : RefreshEvent → Pages × List RefreshOutput
  | .timer _ a =>
    if page.job.timer then
      let page := {page with job := {page.job with timer := false}}
      refreshStep config p page a s
    else (s,[])
  | .slice _ now answer => match page.job.task, page.job.scan with
    | .posted, some scan =>
      let outcome := refreshScan now page.job.deadline answer scan
      (s.setJob page.id {page.job with
        scan := some outcome.2
        task := if outcome.1 = .again then .posted else .ran},[])
    | _, _ => (s,[])
  | .notify _ a =>
    if page.job.task = .ran then
      let job := {page.job with scanning := false, task := .idle}
      if !job.request then (s.close page,[])
      else
        let page := {page with job := {job with timer := false}}
        refreshStep config p page a s
    else (s,[])
  | .reject _ probe =>
    if page.job.request && probe ∈ page.flying then
      (s.setJob page.id (refreshReject page.job),[.rejected page.id probe])
    else (s,[])
  | .complete _ probe status =>
    if page.job.request && page.completes late probe then completeStep p page probe status s else (s,[])
  | .disconnect _ =>
    if page.job.request then
      let outcome := refreshCleanup p.slot page.job s.system.queue
      let s := s.setQueue outcome.2
      match outcome.1 with
      | none => (s.close page,[])
      | some job => (s.revise page.id (Page.cut job),[])
    else (s,[])
  | _ => (s,[])

/- The ways an event of a page goes, with what the page was found to be. -/
inductive PageTurn (p : Process) (page : Page) (s : Pages) : RefreshEvent → Pages × List RefreshOutput → Prop where
  | idle {e : RefreshEvent} : PageTurn p page s e (s,[])
  | timer {id : Nat} {a : StepAnswer} : PageTurn p page s (.timer id a)
      (refreshStep config p {page with job := {page.job with timer := false}} a s)
  | slice {id : Nat} {now : UInt64} {answer : ScanAnswer} {scan : RefreshScan} (posted : page.job.task = .posted)
      (open_ : page.job.scan = some scan) : PageTurn p page s (.slice id now answer)
        (s.setJob page.id {page.job with
          scan := some (refreshScan now page.job.deadline answer scan).2
          task := if (refreshScan now page.job.deadline answer scan).1 = .again then .posted else .ran},[])
  | closed {id : Nat} {a : StepAnswer} (gone : page.job.request = false) :
      PageTurn p page s (.notify id a) (s.close page,[])
  | told {id : Nat} {a : StepAnswer} (ran : page.job.task = .ran) (alive : page.job.request = true) :
      PageTurn p page s (.notify id a)
        (refreshStep config p {page with job := {page.job with scanning := false, task := .idle, timer := false}} a s)
  | rejected {id probe : Nat} (alive : page.job.request = true) (flying : probe ∈ page.flying) :
      PageTurn p page s (.reject id probe) (s.setJob page.id (refreshReject page.job),[.rejected page.id probe])
  | completed {id probe status : Nat} (called : (page.job.request && page.completes late probe) = true) :
      PageTurn p page s (.complete id probe status) (completeStep p page probe status s)
  | left_ {id : Nat} : PageTurn p page s (.disconnect id)
      ((s.setQueue (refreshCleanup p.slot page.job s.system.queue).2).close page,[])
  | cut {id : Nat} {job : RefreshJob} (kept : (refreshCleanup p.slot page.job s.system.queue).1 = some job) :
      PageTurn p page s (.disconnect id)
        ((s.setQueue (refreshCleanup p.slot page.job s.system.queue).2).revise page.id (Page.cut job),[])

theorem pageCases (p : Process) (page : Page) (s : Pages) (e : RefreshEvent) :
    PageTurn config late p page s e (pageStep config late p page s e) := by
  cases e with
  | worker e => exact .idle
  | start pid conf deadline after => exact .idle
  | timer id a =>
    simp only [pageStep]
    split
    · exact .timer
    · exact .idle
  | slice id now answer =>
    simp only [pageStep]
    split
    · rename_i posted open_
      exact .slice posted open_
    · exact .idle
  | notify id a =>
    simp only [pageStep]
    split
    · rename_i ran
      split
      · rename_i gone
        exact .closed (by simpa using gone)
      · rename_i kept
        exact .told ran (by simpa using kept)
    · exact .idle
  | reject id probe =>
    simp only [pageStep]
    split
    · rename_i called
      simp only [Bool.and_eq_true,decide_eq_true_eq] at called
      exact .rejected called.1 called.2
    · exact .idle
  | complete id probe status =>
    simp only [pageStep]
    split
    · rename_i called
      exact .completed called
    · exact .idle
  | disconnect id =>
    simp only [pageStep]
    split
    · split
      · exact .left_
      · rename_i kept
        exact .cut kept
    · exact .idle

def RefreshEvent.page : RefreshEvent → Nat
  | .timer id _ | .slice id _ _ | .notify id _ | .reject id _ | .complete id _ _ | .disconnect id => id
  | _ => 0

def startPage (pid : Pid) (conf : RefreshConf) (deadline : UInt64) (after : Bytes) (s : Pages) : Pages :=
  {s with
    pages := s.pages ++ [⟨s.opened,pid,.fresh conf deadline after,0,[]⟩]
    opened := s.opened + 1}

def Pages.visit (s : Pages) (e : RefreshEvent) : Pages × List RefreshOutput :=
  match s.find e.page with
  | none => (s,[])
  | some page => match s.system.find page.pid with
    | none => (s,[])
    | some p => if p.exited then (s,[]) else pageStep config late p page s e

def Pages.step (s : Pages) (e : RefreshEvent) : Pages × List RefreshOutput :=
  match e with
  | .worker e => (s.work config e,[])
  | .start pid conf deadline after =>
    if s.system.procs.any (fun p => p.pid == pid && !p.exited) then
      (startPage pid conf deadline after s,[])
    else (s,[])
  | e => s.visit config late e

/- The ways a step goes: a page is visited in a process that has not exited, or no page is. -/
inductive PagesTurn (s : Pages) : RefreshEvent → Pages × List RefreshOutput → Prop where
  | idle {e : RefreshEvent} : PagesTurn s e (s,[])
  | worked {e : WorkerEvent} : PagesTurn s (.worker e) (s.work config e,[])
  | started {pid : Pid} {conf : RefreshConf} {deadline : UInt64} {after : Bytes} {p : Process}
      (running : p ∈ s.system.procs) (mine : p.pid = pid) :
      PagesTurn s (.start pid conf deadline after) (startPage pid conf deadline after s,[])
  | visited {e : RefreshEvent} {p : Process} {page : Page} (member : page ∈ s.pages) (called : page.id = e.page)
      (running : p ∈ s.system.procs) (owned : p.pid = page.pid) (present : p.exited = false) :
      PagesTurn s e (pageStep config late p page s e)

theorem visitCases (s : Pages) (e : RefreshEvent) : PagesTurn config late s e (s.visit config late e) := by
  unfold Pages.visit
  split
  · exact .idle
  rename_i page found
  have called : page.id = e.page := by simpa using List.find?_some found
  split
  · exact .idle
  rename_i p here
  have owned : p.pid = page.pid := by simpa using List.find?_some here
  split
  · exact .idle
  · rename_i present
    exact .visited (List.mem_of_find?_eq_some found) called (List.mem_of_find?_eq_some here) owned
      (by simpa using present)

theorem pagesCases (s : Pages) (e : RefreshEvent) : PagesTurn config late s e (s.step config late e) := by
  cases e with
  | worker e => exact .worked
  | start pid conf deadline after =>
    simp only [Pages.step]
    split
    · rename_i able
      simp only [Bool.and_eq_true,List.any_eq_true,beq_iff_eq] at able
      obtain ⟨p,running,mine,_⟩ := able
      exact .started running mine
    · exact .idle
  | _ => exact visitCases config late s _

def refreshMachine : Machine Pages RefreshEvent RefreshOutput := ⟨Pages.step config late⟩

def refreshInit (maxSize : Nat) (paths : List (Nat × Bytes)) (epochs : Nat → Epoch) : Pages :=
  ⟨systemInit maxSize paths epochs,[],fun _ => none,0⟩

end events
end CachePurge
