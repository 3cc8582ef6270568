import CachePurge.CacheFile
import CachePurge.Queue
import Mathlib.Data.List.Sort

/-! One REFRESH page: the callbacks of ngx_http_cache_refresh_t. The scan ends
with the entries its collector admitted; every other answer of the system (locks,
allocations, the thread pool, the clock) is an argument. -/
namespace CachePurge

inductive RefreshResult where
  | pending | kept | invalidated | transport | status | vary | profile | replaced | error
  deriving DecidableEq, Repr

structure Found where
  hash : Bytes
  key : Bytes
  header : CacheHeader
  deriving DecidableEq, Repr

structure RefreshEntry where
  found : Found
  status : Nat
  result : RefreshResult
  deriving DecidableEq, Repr

structure RefreshScan where
  entries : List RefreshEntry
  more : Bool
  complete : Bool
  failed : Bool
  timedOut : Bool
  cancelled : Bool
  deriving DecidableEq, Repr

inductive RefreshTask where
  | idle | posted | ran
  deriving DecidableEq, Repr

structure RefreshConf where
  ns : Nat
  refreshPrefix : Bytes
  cachePath : Bytes
  poolName : Bytes
  protection : Protection
  deriving DecidableEq, Repr

structure RefreshJob where
  conf : RefreshConf
  request : Bool
  deadline : UInt64
  timer : Bool
  scan : Option RefreshScan
  threaded : Bool
  task : RefreshTask
  position : Nat
  scanning : Bool
  active : Bool
  credit : Bool
  decision : Bool
  timedOut : Bool
  after : Bytes
  uri : Bytes
  etag : Bytes
  modified : Option Int
  deriving DecidableEq, Repr

def refreshProbes : Nat := 16

section credit

def reclaimProbes (alive : Pid → Bool) (q : Queue) : Queue :=
  {q with probes := fun i =>
    if q.probes i ≠ 0 ∧ (q.owners i = 0 ∨ alive (q.owners i) = false) then 0 else q.probes i}

def probeTotal (q : Queue) : Nat := ((List.range maxProcesses).map q.probes).sum

def probeCredit (slot : Slot) (alive : Pid → Bool) (take locked : Bool) (q : Queue) : Rc × Queue :=
  if take && !locked then (.again,q)
  else if !take then (.ok,{q with probes := Function.update q.probes slot (q.probes slot - 1)})
  else
    let q := reclaimProbes alive q
    if refreshProbes ≤ probeTotal q then (.again,q)
    else (.ok,{q with probes := Function.update q.probes slot (q.probes slot + 1)})

def refreshCredit (slot : Slot) (alive : Pid → Bool) (take locked : Bool) (job : RefreshJob) (q : Queue) :
    Rc × RefreshJob × Queue :=
  if !take && !job.credit then (.ok,job,q)
  else
    let outcome := probeCredit slot alive take locked q
    (outcome.1,if outcome.1 = .ok then {job with credit := take} else job,outcome.2)

def releaseCredit (slot : Slot) (job : RefreshJob) (q : Queue) : RefreshJob × Queue :=
  (refreshCredit slot (fun _ => true) false true job q).2

end credit

namespace RefreshJob

def entry (job : RefreshJob) : Option RefreshEntry := job.scan.bind fun scan => scan.entries[job.position]?

def record (f : RefreshEntry → RefreshEntry) (job : RefreshJob) : RefreshJob :=
  {job with scan := job.scan.map fun scan => {scan with entries := scan.entries.modify job.position f}}

def result (result : RefreshResult) (job : RefreshJob) : RefreshJob :=
  job.record fun entry => {entry with result := result}

def wait (job : RefreshJob) : RefreshJob := {job with timer := true}

def expire (now : UInt64) (leaving : Bool) (job : RefreshJob) : RefreshJob :=
  if reached now job.deadline || leaving then
    {job with timedOut := true, scan := job.scan.map fun scan => {scan with cancelled := true}}
  else job

end RefreshJob

structure ScanAnswer where
  rc : Rc
  entries : List Found
  more : Bool
  deriving DecidableEq, Repr

def refreshScan (now deadline : UInt64) (answer : ScanAnswer) (scan : RefreshScan) : Rc × RefreshScan :=
  if scan.cancelled || reached now deadline then (.done,{scan with timedOut := true})
  else
    let entries := answer.entries.map fun found => ⟨found,0,.pending⟩
    let scan := {scan with entries := entries, more := answer.more}
    if answer.rc = .again then (.again,scan)
    else
      let complete := answer.rc == .ok
      (answer.rc,{scan with
        complete := complete
        failed := !complete
        entries := if complete then entries.insertionSort fun a b => a.found.hash ≤ b.found.hash
          else entries})

structure PrepareAnswer where
  scan : Bool
  filter : Bool
  threaded : Bool
  poolFound : Bool
  task : Bool
  deriving DecidableEq, Repr

def prepareScan (answer : PrepareAnswer) (job : RefreshJob) : Option RefreshJob :=
  if !answer.scan || !answer.filter then none
  else
    let job := {job with scan := some ⟨[],false,false,false,false,false⟩}
    if !answer.threaded then some job
    else if answer.task then some {job with threaded := answer.poolFound} else none

def uriMapped (uri : Bytes) : Bool :=
  uri.head? == some slash && uri.all fun c => !(c ≤ 32 || c == 35 || c == 127)

def etagMapped (etag : Bytes) : Bool := etag.all fun c => !(c < 32 || c == 127)

structure ProbeAnswer where
  locked : Bool
  memory : Bool
  subrequest : Bool
  deriving DecidableEq, Repr

/- ngx_http_cache_refresh_probe up to the credit: the row it gets without a probe,
or the variables of the profile. -/
def mapEntry (name : Name) (z : Zone) (found : Found) (job : RefreshJob) : RefreshResult × RefreshJob :=
  match generationCurrent name z found.key with
  | (.ok,some logical) =>
    if found.header.varyLen ≠ 0 then (.vary,job)
    else if logical.length ≤ job.conf.refreshPrefix.length ||
        logical.take job.conf.refreshPrefix.length ≠ job.conf.refreshPrefix then (.profile,job)
    else
      let job := {job with uri := logical.drop job.conf.refreshPrefix.length}
      if !uriMapped job.uri then (.profile,job)
      else
        let job := {job with etag := found.header.etag.take found.header.etagLen}
        if !etagMapped job.etag then (.profile,job)
        else (.pending,{job with
          modified := if 0 < found.header.lastModified then some found.header.lastModified else none})
  | _ => (.replaced,job)

def refreshProbe (name : Name) (slot : Slot) (alive : Pid → Bool) (answer : ProbeAnswer) (z : Zone)
    (found : Found) (job : RefreshJob) (q : Queue) : Rc × RefreshJob × Queue :=
  let mapped := mapEntry name z found job
  if mapped.1 ≠ .pending then (.declined,mapped.2.result mapped.1,q)
  else
    let credit := refreshCredit slot alive true answer.locked mapped.2 q
    if credit.1 ≠ .ok then (.again,credit.2)
    else if !answer.memory then (.error,releaseCredit slot credit.2.1 credit.2.2)
    else if !answer.subrequest then (.error,releaseCredit slot credit.2.1 credit.2.2)
    else (.ok,{credit.2.1 with active := true},credit.2.2)

def RefreshJob.settle (status : Nat) (job : RefreshJob) : RefreshJob :=
  if (job.entry.map RefreshEntry.result) = some .profile then job
  else if status = 304 then job.result .kept
  else if status = 200 || status = 404 || status = 410 then {job with decision := true}
  else job.result (if status = 0 then .transport else .status)

def refreshDone (slot : Slot) (status : Nat) (job : RefreshJob) (q : Queue) : RefreshJob × Queue :=
  if !job.active then (job,q)
  else
    let released := releaseCredit slot {job with active := false} q
    let job := released.1.record fun entry => {entry with status := status}
    ((job.settle status).wait,released.2)

/- ngx_http_cache_refresh_guard when it rejects the target of a probe. -/
def refreshReject (job : RefreshJob) : RefreshJob := job.result .profile

def refreshCleanup (slot : Slot) (job : RefreshJob) (q : Queue) : Option RefreshJob × Queue :=
  let released := releaseCredit slot {job with request := false} q
  let job : RefreshJob :=
    {released.1 with scan := released.1.scan.map fun scan => {scan with cancelled := true}}
  (if job.task = .idle then none else some job,released.2)

structure RefreshRow where
  hash : Bytes
  status : Nat
  result : RefreshResult
  deriving DecidableEq, Repr

structure RefreshBody where
  scanComplete : Bool
  complete : Bool
  timedOut : Bool
  undispatched : Nat
  nextCursor : Bytes
  results : List RefreshRow
  deriving DecidableEq, Repr

inductive RefreshReply where
  | scanFailed
  | internalError
  | page (body : RefreshBody)
  deriving DecidableEq, Repr

def refreshReply (memory : Bool) (job : RefreshJob) : RefreshReply :=
  if job.scan.any RefreshScan.failed then .scanFailed
  else if !memory then .internalError
  else
    let scanComplete := job.scan.any RefreshScan.complete
    let entries := (job.scan.map RefreshScan.entries).getD []
    let rows := if scanComplete then entries else []
    let complete := scanComplete && !job.scan.any RefreshScan.more && job.position == rows.length
    .page ⟨scanComplete,complete,job.timedOut,entries.length - job.position,job.after,
      rows.map fun entry => ⟨entry.found.hash,entry.status,entry.result⟩⟩

end CachePurge
