import CachePurge.Queue

/-! One worker and the task it holds: the sections of
ngx_http_cache_purge_process_queue, which takes a task, hands it to a pool thread
or walks it in slices, and gives it back, and the start and exit of the worker. -/
namespace CachePurge

structure Counters where
  filesDeleted : UInt64
  deleteErrors : UInt64
  scanErrors : UInt64
  bytesDeleted : UInt64
  deriving DecidableEq, Repr

structure Work where
  item : Option TaskId
  root : Bytes
  protection : Protection
  selector : Bytes
  ns : Option Nat
  counters : Counters
  started : Bool
  complete : Bool
  threaded : Bool
  pool : Bool
  active : Bool
  finished : Bool
  deriving DecidableEq, Repr

def Work.idle (threaded : Bool) : Work :=
  ⟨none,[],[],[],none,⟨0,0,0,0⟩,false,false,threaded,false,false,false⟩

def Item.ready (now : UInt64) (item : Item) : Bool := item.retryAt == 0 || reached now item.retryAt

def selectReady (items : TaskId → Option Item) (now : UInt64) : Nat → List TaskId →
    Option TaskId × List TaskId
  | 0, pending => (none,pending)
  | _ + 1, [] => (none,[])
  | n + 1, t :: rest =>
    if (items t).any (Item.ready now) then (some t,rest) else selectReady items now n (rest ++ [t])

def Item.start (owner : Owner) (item : Item) : Item :=
  {item with
    retryAt := 0
    running := true
    owner := owner.pid
    ownerSlot := owner.slot
    ownerEpoch := owner.epoch}

def Item.selector (item : Item) : Bytes :=
  if item.key.tail.getLast? == some star then item.key.tail.dropLast else item.key.tail

def Item.abandoned (names : Nat → Name) (namespaces : List Nat) (item : Item) : Prop :=
  item.key.head? = some 71 ∧ ∀ n ∈ namespaces, (names n).bytes ≠ item.selector

instance (names : Nat → Name) (namespaces : List Nat) (item : Item) : Decidable (item.abandoned names namespaces) :=
  inferInstanceAs (Decidable (_ ∧ _))

def Work.begin (names : Nat → Name) (namespaces : List Nat) (poolFound : Bool) (t : TaskId) (item : Item)
    (root : Bytes) (w : Work) : Work :=
  let rest := item.key.tail
  let selector := if rest.getLast? == some star then rest.dropLast else rest
  let w := {w with
    item := some t
    root := root
    protection := item.protection
    selector := selector
    ns := none
    counters := ⟨0,0,0,0⟩
    started := false
    complete := false}
  let w := if item.key.head? == some 71 then
      match namespaces.find? fun n => (names n).bytes == selector with
      | some n => {w with ns := some n, selector := []}
      | none => {w with selector := [], started := true, complete := true}
    else w
  {w with pool := w.threaded && poolFound}

section sections
variable (names : Nat → Name) (namespaces : List Nat)

def startTask (pid : Pid) (slot : Slot) (t : TaskId) (item : Item) (rest : List TaskId) (q : Queue) :
    Queue :=
  let owner : Owner := ⟨pid,slot,q.epochs slot⟩
  let q := {q with pending := rest, active := q.active ++ [t]}.modify t (Item.start owner)
  let q := q.statAdd (some slot) item.path .started 1
  let q := q.statAdd (some slot) item.path .startedFull (if item.purgeAll then 1 else 0)
  let q := {q with size := q.size - 1, running := q.running + 1}
  match q.pending with
  | [] => q
  | head :: _ => {q with oldest := q.enqueuedAt head}

def takeTask (pid : Pid) (slot : Slot) (leaving : Bool) (now : UInt64) (locked poolFound : Bool)
    (q : Queue) (w : Work) : Option Rc × Queue × Work :=
  if leaving then (some .ok,q,w)
  else if !locked then (some .busy,q,w)
  else if q.pending.isEmpty then (some .ok,q,w)
  else match selectReady q.items now (min q.size walkEntries) q.pending with
    | (none, pending) => (some .busy,{q with pending := pending},w)
    | (some t, rest) => match q.items t with
      | none => (some .busy,q,w)
      | some item =>
        (none,startTask pid slot t item rest q,
          w.begin names namespaces poolFound t item (q.path item.path).name)

def postTask (posted : Bool) (w : Work) : Rc × Work :=
  let w := {w with finished := false}
  if posted then (.done,{w with active := true}) else (.busy,{w with active := false})

/- ngx_http_cache_purge_thread -/
def threadRun (counters : Counters) (w : Work) : Work :=
  {w with started := true, complete := true, finished := true, counters := counters}

def sliceTask (again : Bool) (counters : Counters) (w : Work) : Work :=
  {w with started := true, complete := !again, counters := counters}

def retryDelay (retries : Nat) : UInt64 := if retries = 0 then 100 else if retries = 1 then 1000 else 10000

def settleTask (slot : Slot) (now : UInt64) (t : TaskId) (item : Item) (w : Work) (q : Queue) : Bool × Queue :=
  let retry := w.counters.scanErrors != 0 || w.counters.deleteErrors != 0
  if item.rerun || !w.complete then (true,q.modify t fun item => {item with retries := 0, retryAt := 0})
  else if retry && item.retries < 3 then
    (true,(q.modify t fun item => {item with
      retryAt := now + retryDelay item.retries
      retries := item.retries + 1}).statAdd (some slot) item.path .retried 1)
  else if retry then (false,q.statAdd (some slot) item.path .exhausted 1)
  else (false,q)

def endTask (slot : Slot) (now : UInt64) (t : TaskId) (item : Item) (w : Work) (q : Queue) : Queue :=
  let settled := settleTask slot now t item w q
  let q := settled.2.statAdd (some slot) item.path .finished 1
  let q := q.statAdd (some slot) item.path .deleted w.counters.filesDeleted
  let q := q.statAdd (some slot) item.path .deleteErrors w.counters.deleteErrors
  let q := q.statAdd (some slot) item.path .scanErrors w.counters.scanErrors
  let q := q.statAdd (some slot) item.path .deletedBytes w.counters.bytesDeleted
  let q := {q with running := q.running - 1, active := q.active.erase t}
  if settled.1 then
    let q := (q.modify t (Item.requeue now)).pushPending t
    let q := q.statAdd (some slot) item.path .enqueued 1
    let q := q.statAdd (some slot) item.path .enqueuedFull (if item.purgeAll then 1 else 0)
    {q with size := q.size + 1}
  else (q.modifyPath item.path fun path => {path with index := path.index.erase t}).free t

def Work.emptied (w : Work) : Work := {w with item := none}

def finishTask (slot : Slot) (final : Bool) (now : UInt64) (locked : Bool) (q : Queue) (w : Work) :
    Rc × Queue × Work :=
  if !final && !locked then (.busy,q,w)
  else match w.item with
    | none => (.again,q,w)
    | some t => match q.items t with
      | none => (.again,q,w)
      | some item => (.again,endTask slot now t item w q,w.emptied)

end sections

/- ngx_http_cache_purge_init_worker: current is the slot this process holds from
an earlier cycle. It fails when the slot's epochs are used up. -/
def initWorker (current : Option Slot) (pid : Pid) (slot : Slot) (q : Queue) : Option Queue :=
  if maxProcesses ≤ slot then none
  else
    let bump := current ≠ some slot ∨ q.owners slot ≠ pid
    if bump ∧ q.epochs slot = 0xFFFFFFFFFFFFFFFF then none
    else
      let q := {q with epochs :=
        if bump then Function.update q.epochs slot (q.epochs slot + 1) else q.epochs}
      let q := {q with
        owners := Function.update q.owners slot pid
        probes := Function.update q.probes slot 0}
      some (q.paths.foldl (fun q a => q.modifyPath a fun path => {path with
        stats := Function.update path.stats slot (Function.update (path.stats slot) .waiting 0)}) q)

def deregister (slot : Slot) (q : Queue) : Queue :=
  {q with
    owners := Function.update q.owners slot 0
    probes := Function.update q.probes slot 0}

def Work.closing (closed : UInt64) (w : Work) : Work :=
  {w with counters := {w.counters with scanErrors := w.counters.scanErrors + closed}}

def exitWorker (slot : Slot) (now closed : UInt64) (q : Queue) (w : Work) : Queue × Work :=
  if w.active && !w.finished then (q,w)
  else
    let ended := if w.item.isSome then (finishTask slot true now true q (w.closing closed)).2 else (q,w)
    (deregister slot ended.1,ended.2)

section ways
variable {slot : Slot} {now closed : UInt64} {q : Queue} {w : Work}

theorem exitBusy (busy : (w.active && !w.finished) = true) : exitWorker slot now closed q w = (q,w) := by
  rw [exitWorker,if_pos busy]

theorem exitEmpty (free : (w.active && !w.finished) = false) (empty : w.item = none) :
    exitWorker slot now closed q w = (deregister slot q,w) := by
  simp [exitWorker,free,empty]

theorem exitHolding {t : TaskId} {item : Item} (free : (w.active && !w.finished) = false) (holds : w.item = some t)
    (here : q.items t = some item) : exitWorker slot now closed q w =
      (deregister slot (endTask slot now t item (w.closing closed) q),(w.closing closed).emptied) := by
  have closing : (w.closing closed).item = some t := holds
  simp [exitWorker,free,holds,finishTask,closing,here]

end ways
end CachePurge
