import CachePurge.GenerationState
import CachePurge.Paths
import Mathlib.Logic.Function.Basic

/-! The task queue in the shared zone, and the operations that run under its
lock: ngx_http_cache_purge_enqueue and ngx_http_cache_purge_recover. Tasks are
slab cells; a path's rbtree is the list of its tasks, searched by complete key. -/
namespace CachePurge

abbrev TaskId := Nat
abbrev Pid := Nat
abbrev Slot := Nat
abbrev Protection := List Bytes

def maxProcesses : Nat := 1024
def keyMaxLen : Nat := 512
def walkEntries : Nat := 64

inductive Metric where
  | enqueued | enqueuedFull | started | startedFull | finished | deduplicated | waiting | overflow
  | deleted | deleteErrors | deletedBytes | hit | miss | invalidated | scanErrors | retried | exhausted
  deriving DecidableEq, Repr

structure Item where
  key : Bytes
  poolName : Bytes
  purgeAll : Bool
  running : Bool
  rerun : Bool
  owner : Pid
  ownerSlot : Slot
  ownerEpoch : UInt64
  enqueuedAt : UInt64
  retryAt : UInt64
  retries : Nat
  path : Nat
  protection : Protection
  nextProtection : Option Protection
  deriving DecidableEq, Repr

structure Owner where
  pid : Pid
  slot : Slot
  epoch : UInt64
  deriving DecidableEq, Repr

def Item.holder (item : Item) : Owner := ⟨item.owner,item.ownerSlot,item.ownerEpoch⟩

/- What ngx_slab_calloc_locked returns. -/
def Item.zeroed : Item := ⟨[],[],false,false,false,0,0,0,0,0,0,0,[],none⟩

structure QueuePath where
  name : Bytes
  index : List TaskId
  stats : Slot → Metric → UInt64

structure Queue where
  pending : List TaskId
  active : List TaskId
  size : Nat
  running : Nat
  oldest : UInt64
  owners : Slot → Pid
  epochs : Slot → UInt64
  probes : Slot → Nat
  maxSize : Nat
  paths : List Nat
  path : Nat → QueuePath
  items : TaskId → Option Item

def queueInit (maxSize : Nat) (paths : List (Nat × Bytes)) : Queue where
  pending := []
  active := []
  size := 0
  running := 0
  oldest := 0
  owners := fun _ => 0
  epochs := fun _ => 0
  probes := fun _ => 0
  maxSize := maxSize
  paths := paths.map Prod.fst
  path a := ⟨((paths.find? fun p => p.1 == a).map Prod.snd).getD [],[],fun _ _ => 0⟩
  items := fun _ => none

def reached (now at_ : UInt64) : Bool := (now - at_).toNat < 2^63

namespace Queue

def modifyPath (a : Nat) (f : QueuePath → QueuePath) (q : Queue) : Queue :=
  {q with path := Function.update q.path a (f (q.path a))}

def modify (t : TaskId) (f : Item → Item) (q : Queue) : Queue :=
  {q with items := Function.update q.items t ((q.items t).map f)}

def put (t : TaskId) (item : Item) (q : Queue) : Queue :=
  {q with items := Function.update q.items t (some item)}

def free (t : TaskId) (q : Queue) : Queue := {q with items := Function.update q.items t none}

def purgeAll (q : Queue) (t : TaskId) : Bool := (q.items t).any Item.purgeAll

def enqueuedAt (q : Queue) (t : TaskId) : UInt64 := ((q.items t).map Item.enqueuedAt).getD 0

/- ngx_http_cache_purge_stat_add: a saturating sum in the worker's own slot. -/
def statAdd (slot : Option Slot) (a : Nat) (field : Metric) (value : UInt64) (q : Queue) : Queue :=
  match slot with
  | none => q
  | some slot => q.modifyPath a fun path =>
    let old := path.stats slot field
    let row := Function.update (path.stats slot) field (old + min value (0xFFFFFFFFFFFFFFFF - old))
    {path with stats := Function.update path.stats slot row}

def findPath (platform : Platform) (name : Bytes) (q : Queue) : Option Nat :=
  q.paths.find? fun a => (q.path a).name.length == pathLength platform name &&
    pathEqual platform (q.path a).name name (q.path a).name.length

def lookup (a : Nat) (key : Bytes) (q : Queue) : Option TaskId :=
  (q.path a).index.find? fun t => (q.items t).any fun item => item.key == key

def pushPending (t : TaskId) (q : Queue) : Queue :=
  {q with
    oldest := if q.pending.isEmpty then q.enqueuedAt t else q.oldest
    pending := q.pending ++ [t]}

end Queue

/- What the request path knows when it calls ngx_http_cache_purge_enqueue. -/
structure Purge where
  ready : Bool
  cachePath : Bytes
  ns : Option Nat
  key : Bytes
  purgeAll : Bool
  expected : Option Bytes
  poolName : Bytes
  protection : Protection
  now : UInt64
  deriving DecidableEq, Repr

structure Outcome where
  locked : Bool
  nested : Bool
  cell : Option TaskId
  cells : List (Option Nat)
  deriving DecidableEq, Repr

namespace Purge

def invalidation (p : Purge) (o : Outcome) : Invalidation := ⟨p.key,p.purgeAll,p.expected,o.nested,o.cells⟩

def indexKey (names : Nat → Name) (p : Purge) : Bytes :=
  match p.ns with
  | some n => 71 :: (names n).bytes
  | none => 76 :: p.key.take (if p.purgeAll then 0 else p.key.length)

def tooLong (p : Purge) : Bool :=
  let keyLen := if p.purgeAll then 0 else p.key.length
  (p.ns.isNone && keyMaxLen < keyLen) || (p.ns.isSome && logicalKeyMax < p.key.length)

def publish (names : Nat → Name) (p : Purge) (o : Outcome) (zones : Nat → Zone) : Rc × (Nat → Zone) :=
  match p.ns with
  | none => (.ok,zones)
  | some n =>
    let outcome := generationInvalidate (names n) (p.invalidation o) (zones n)
    (outcome.1,Function.update zones n outcome.2)

def item (names : Nat → Name) (p : Purge) (a : Nat) : Item :=
  {Item.zeroed with
    key := p.indexKey names
    poolName := p.poolName
    purgeAll := p.purgeAll
    enqueuedAt := p.now
    path := a
    protection := p.protection}

def renew (p : Purge) (item : Item) : Item :=
  let item := if item.running then {item with rerun := true, nextProtection := some p.protection}
    else {item with protection := p.protection}
  {item with retries := 0, retryAt := 0}

end Purge

section enqueue
variable (platform : Platform) (names : Nat → Name) (slot : Option Slot)

def renewTask (p : Purge) (a : Nat) (t : TaskId) (q : Queue) : Queue :=
  let q := (q.modify t p.renew).statAdd slot a .deduplicated 1
  if p.ns.isSome then q.statAdd slot a .invalidated 1 else q

def admitTask (p : Purge) (a : Nat) (t : TaskId) (q : Queue) : Queue :=
  let q := q.put t (p.item names a)
  let q := q.modifyPath a fun path => {path with index := path.index ++ [t]}
  let q := q.statAdd slot a .enqueued 1
  let q := q.statAdd slot a .enqueuedFull (if p.purgeAll then 1 else 0)
  let q := if p.ns.isSome then q.statAdd slot a .invalidated 1 else q
  let q := q.pushPending t
  {q with size := q.size + 1}

def enqueueDuplicate (p : Purge) (o : Outcome) (a : Nat) (t : TaskId) (q : Queue) (zones : Nat → Zone) :
    Rc × Queue × (Nat → Zone) :=
  let published := p.publish names o zones
  if published.1 ≠ .ok then (published.1,q,published.2)
  else (.ok,renewTask slot p a t q,published.2)

def enqueueNew (p : Purge) (o : Outcome) (a : Nat) (q : Queue) (zones : Nat → Zone) :
    Rc × Queue × (Nat → Zone) :=
  if q.maxSize ≤ q.size + q.running then (.again,q,zones)
  else match o.cell with
    | none => (.again,q,zones)
    | some t =>
      -- The slab never hands out a live cell.
      if (q.items t).isSome then (.again,q,zones)
      else
        let q := q.put t .zeroed
        let published := p.publish names o zones
        if published.1 ≠ .ok then (published.1,q.free t,published.2)
        else (.ok,admitTask names slot p a t q,published.2)

def enqueue (exiting : Bool) (p : Purge) (o : Outcome) (q : Queue) (zones : Nat → Zone) :
    Rc × Queue × (Nat → Zone) :=
  if !p.ready then (.error,q,zones)
  else if exiting then (.abort,q,zones)
  else if p.tooLong then (.declined,q,zones)
  else if !o.locked then (.again,q,zones)
  else match q.findPath platform p.cachePath with
    | none => (.again,q,zones)
    | some a => match q.lookup a (p.indexKey names) with
      | some t => enqueueDuplicate names slot p o a t q zones
      | none => enqueueNew names slot p o a q zones

end enqueue

def Item.requeue (now : UInt64) (item : Item) : Item :=
  let item := {item with running := false, owner := 0, rerun := false}
  let item := match item.nextProtection with
    | some next => {item with protection := next, nextProtection := none}
    | none => item
  {item with enqueuedAt := now}

def ownerAlive (alive : Pid → Bool) (q : Queue) (item : Item) : Bool :=
  q.owners item.ownerSlot == item.owner && q.epochs item.ownerSlot == item.ownerEpoch && alive item.owner

def recoverOne (slot : Option Slot) (alive : Pid → Bool) (now : UInt64) (q : Queue) :
    Queue × Option (Owner × TaskId) :=
  match q.active with
  | [] => (q,none)
  | t :: rest => match q.items t with
    | none => (q,none)
    | some item =>
      if ownerAlive alive q item then ({q with active := rest ++ [t]},none)
      else
        let q := ({q with active := rest}.modify t (Item.requeue now)).pushPending t
        let q := {q with running := q.running - 1, size := q.size + 1}
        let q := q.statAdd slot item.path .finished 1
        let q := q.statAdd slot item.path .enqueued 1
        (q.statAdd slot item.path .enqueuedFull (if item.purgeAll then 1 else 0),some (item.holder,t))

def recoverLoop (slot : Option Slot) (alive : Pid → Bool) (now : UInt64) :
    Nat → Queue → Queue × List (Owner × TaskId)
  | 0, q => (q,[])
  | n + 1, q =>
    let one := recoverOne slot alive now q
    let rest := recoverLoop slot alive now n one.1
    (rest.1,one.2.toList ++ rest.2)

def recover (slot : Option Slot) (alive : Pid → Bool) (now : UInt64) (locked : Bool) (q : Queue) :
    Queue × List (Owner × TaskId) :=
  if !locked then (q,[]) else recoverLoop slot alive now (min q.running walkEntries) q

end CachePurge
