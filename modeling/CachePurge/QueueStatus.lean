import CachePurge.WorkerRuns
import CachePurge.WorkerSections

/-! The status of the queue: ngx_http_cache_purge_queue_status_snapshot sums the
counters of a path over all slots. Each task is counted in when it joins a list
and out when it leaves it, by whichever worker does so; so the differences of the
sums are the lengths of the lists. -/
namespace CachePurge
open General

structure CacheStat where
  pending : UInt64
  pendingFull : UInt64
  active : UInt64
  overflow : UInt64
  deleted : UInt64
  deduplicated : UInt64
  waiting : UInt64
  errors : UInt64
  bytes : UInt64
  hits : UInt64
  misses : UInt64
  invalidated : UInt64
  scanErrors : UInt64
  retries : UInt64
  exhausted : UInt64
  deriving DecidableEq, Repr

structure QueueStat where
  size : Nat
  maxSize : Nat
  running : Nat
  waitTime : UInt64
  full : Bool
  cache : CacheStat
  deriving DecidableEq, Repr

def age (now since : UInt64) : UInt64 := if reached now since then now - since else 0

/- One row of sum[], as a 64-bit build reads the slots. -/
def statSum (q : Queue) (a : Nat) (field : Metric) : UInt64 :=
  (List.range maxProcesses).foldl
    (fun sum slot => sum + min ((q.path a).stats slot field) (0xFFFFFFFFFFFFFFFF - sum)) 0

def queueStatusSnapshot (now : UInt64) (path : Option Nat) (q : Queue) : QueueStat where
  size := q.size
  maxSize := q.maxSize
  running := q.running
  waitTime := if q.size ≠ 0 then age now q.oldest else 0
  full := q.maxSize ≤ q.size + q.running
  cache := match path with
    | none => ⟨0,0,0,0,0,0,0,0,0,0,0,0,0,0,0⟩
    | some a =>
      let sum := statSum q a
      { pending := sum .enqueued - min (sum .started) (sum .enqueued)
        pendingFull := sum .enqueuedFull - min (sum .startedFull) (sum .enqueuedFull)
        active := sum .started - min (sum .finished) (sum .started)
        overflow := sum .overflow
        deleted := sum .deleted
        deduplicated := sum .deduplicated
        waiting := sum .waiting
        errors := sum .deleteErrors
        bytes := sum .deletedBytes
        hits := sum .hit
        misses := sum .miss
        invalidated := sum .invalidated
        scanErrors := sum .scanErrors
        retries := sum .retried
        exhausted := sum .exhausted }

namespace Queue

def total (q : Queue) (a : Nat) (field : Metric) : Nat :=
  ∑ slot ∈ Finset.range maxProcesses, q.ledger ⟨a,slot,field⟩

def count (q : Queue) (select : Item → Bool) (tasks : List TaskId) : Nat :=
  tasks.countP fun t => (q.items t).any select

/- The tasks of a path in the two lists, and the pending ones classified purge_all. -/
def pendingOf (q : Queue) (a : Nat) : Nat := q.count (fun item => item.path == a) q.pending

def activeOf (q : Queue) (a : Nat) : Nat := q.count (fun item => item.path == a) q.active

def pendingFullOf (q : Queue) (a : Nat) : Nat := q.count (fun item => item.path == a && item.purgeAll) q.pending

/- No counter of the path that follows tasks has met its cap. -/
def Unsaturated (q : Queue) (a : Nat) : Prop :=
  ∀ slot < maxProcesses, ∀ field, field.counted = true → (q.path a).stats slot field ≠ 0xFFFFFFFFFFFFFFFF

def Summable (q : Queue) (a : Nat) : Prop := ∀ field, field.counted = true → q.total a field ≤ counterMax

structure Conserved (q : Queue) (a : Nat) : Prop where
  pending : q.total a .enqueued = q.total a .started + q.pendingOf a
  active : q.total a .started = q.total a .finished + q.activeOf a
  pendingFull : q.total a .enqueuedFull = q.total a .startedFull + q.pendingFullOf a

end Queue

section counts
variable {q q' : Queue} {select : Item → Bool}

theorem countKept {tasks : List TaskId}
    (same : ∀ t ∈ tasks, (q'.items t).any select = (q.items t).any select) : q'.count select tasks = q.count select tasks :=
  List.countP_congr fun t member => by rw [same t member]

theorem countUpdated {t : TaskId} {item item' : Item} (here : q.items t = some item)
    (items : q'.items = Function.update q.items t (some item')) (same : select item' = select item)
    (tasks : List TaskId) : q'.count select tasks = q.count select tasks := by
  refine countKept fun u _ => ?_
  rw [items]
  rcases eq_or_ne u t with rfl | other
  · simp [here,same]
  · rw [Function.update_of_ne other]

theorem countApart {t : TaskId} {cell : Option Item} (items : q'.items = Function.update q.items t cell)
    {tasks : List TaskId} (apart : t ∉ tasks) : q'.count select tasks = q.count select tasks := by
  refine countKept fun u member => ?_
  have other : u ≠ t := by
    rintro rfl
    exact apart member
  rw [items,Function.update_of_ne other]

def Act.weight (act : Act) (q : Queue) (select : Item → Bool) : Nat := ((act.item q).any select).toNat

theorem countTask {t : TaskId} (rest : List TaskId) :
    q.count select (t :: rest) = q.count select rest + ((q.items t).any select).toNat := by
  rw [Queue.count,List.countP_cons]
  cases (q.items t).any select <;> rfl

theorem countJoined {t : TaskId} (front : List TaskId) :
    q.count select (front ++ [t]) = q.count select front + ((q.items t).any select).toNat := by
  rw [Queue.count,List.countP_append,List.countP_singleton]
  cases (q.items t).any select <;> rfl

theorem changeCounts {act : Act} (valid : q.Valid) (change : Change q act q')
    (carried : ∀ item item' : Item, item.Carries item' → select item' = select item) :
    q'.count select q'.pending + act.starts * act.weight q select =
      q.count select q.pending + act.enters * act.weight q select ∧
    q'.count select q'.active + act.stops * act.weight q select =
      q.count select q.active + act.starts * act.weight q select := by
  cases change with
  | shuffle _ pending active _ _ items _ =>
    have kept (tasks : List TaskId) : q'.count select tasks = q.count select tasks :=
      countKept fun t _ => by rw [items]
    rw [kept,kept]
    exact ⟨by simp [Act.starts,Act.enters,Queue.count,pending.countP_eq],
      by simp [Act.starts,Act.stops,Queue.count,active.countP_eq]⟩
  | @accept _ t item _ fresh _ _ _ _ pending active _ _ items _ =>
    have absent : t ∉ q.pending ∧ t ∉ q.active := by
      have none_ : ¬(t ∈ q.pending ∨ t ∈ q.active) := by
        rw [← valid.cells t,fresh]
        simp
      exact not_or.mp none_
    have joined : (q'.items t).any select = select item := by simp [items]
    rw [pending,active,countJoined,countApart items absent.1,countApart items absent.2,joined]
    simp [Act.starts,Act.enters,Act.stops,Act.weight,Act.item]
  | @renew _ t p item _ here pending active _ _ items _ =>
    have same := carried item (p.renew item) (renewCarries p item)
    rw [pending,active,countUpdated here items same,countUpdated here items same]
    simp [Act.starts,Act.enters,Act.stops]
  | @start _ t owner item _ here pending active _ _ items _ =>
    have same := carried item (item.start owner) (startCarries owner item)
    have before : q.count select q.pending = q.count select (t :: q'.pending) := pending.countP_eq _
    have moved : (q'.items t).any select = (q.items t).any select := by simp [items,here,same]
    rw [active,countJoined,moved,countUpdated here items same,countUpdated here items same,before,countTask]
    simp only [Act.starts,Act.enters,Act.stops,Act.weight,Act.item]
    omega
  | @requeue _ t item item' _ here carries _ pending active _ _ items _ =>
    have same := carried item item' carries
    have before : q.count select q.active = q.count select (t :: q'.active) := active.countP_eq _
    have moved : (q'.items t).any select = (q.items t).any select := by simp [items,here,same]
    rw [pending,countJoined,moved,countUpdated here items same,countUpdated here items same,before,countTask]
    simp only [Act.starts,Act.enters,Act.stops,Act.weight,Act.item]
    omega
  | @retire _ t item _ here pending active _ _ items _ =>
    have before : q.count select q.active = q.count select (t :: q'.active) := active.countP_eq _
    have held : t ∈ q.active := active.mem_iff.mpr List.mem_cons_self
    rw [pending,countApart items (activeNotPending valid held),countApart items (activeGone valid active),before,
      countTask]
    simp [Act.starts,Act.enters,Act.stops,Act.weight,Act.item]

end counts

def Act.cost (act : Act) (q : Queue) (a : Nat) (field : Metric) : Nat :=
  ((act.item q).map fun item => if item.path = a then act.charge item.purgeAll field else 0).getD 0

section totals
variable {slot : Slot} {q q' : Queue} {act : Act} {a : Nat} {field : Metric}

theorem costWeight {select : Item → Bool} {n : Nat} (charge : ∀ item : Item,
    (if item.path = a then act.charge item.purgeAll field else 0) = n * (select item).toNat) :
    act.cost q a field = n * act.weight q select := by
  unfold Act.cost Act.weight
  cases act.item q with
  | none => simp
  | some item => exact charge item

theorem costPath {n : Nat} (charge : ∀ full, act.charge full field = n) :
    act.cost q a field = n * act.weight q fun item => item.path == a :=
  costWeight fun item => by
    rw [charge]
    rcases eq_or_ne item.path a with here | other
    · simp [here]
    · simp [other]

theorem costFull {n : Nat} (charge : ∀ full, act.charge full field = if full then n else 0) :
    act.cost q a field = n * act.weight q fun item => item.path == a && item.purgeAll :=
  costWeight fun item => by
    rw [charge]
    rcases eq_or_ne item.path a with here | other
    · cases item.purgeAll <;> simp [here]
    · simp [other]

theorem billCost (i : Slot) : act.bill q (some slot) ⟨a,i,field⟩ = if i = slot then act.cost q a field else 0 := by
  unfold Act.bill Act.cost
  rcases eq_or_ne i slot with rfl | other
  · simp
  · cases act.item q <;> simp [other,Ne.symm other]

theorem capLedger (q : Queue) (i : Slot) :
    (q.path a).stats i field ≠ 0xFFFFFFFFFFFFFFFF ↔ q.ledger ⟨a,i,field⟩ ≠ counterMax :=
  not_congr (UInt64.toNat_inj.symm.trans Iff.rfl)

variable (charged : Charged (some slot) q act q') (unsaturated : q'.Unsaturated a)
include charged unsaturated

theorem chargedExactly {i : Slot} (within : i < maxProcesses) (counted : field.counted = true) :
    q.ledger ⟨a,i,field⟩ ≠ counterMax ∧
    q'.ledger ⟨a,i,field⟩ = q.ledger ⟨a,i,field⟩ + if i = slot then act.cost q a field else 0 := by
  have below := (capLedger q' i).mp (unsaturated i within field counted)
  have entered := charged ⟨a,i,field⟩ counted
  rw [billCost] at entered
  have capped := ledgerBelow q.path ⟨a,i,field⟩
  change q.ledger ⟨a,i,field⟩ ≤ counterMax at capped
  omega

theorem unsaturatedBefore : q.Unsaturated a := fun i within _ counted =>
  (capLedger q i).mpr (chargedExactly charged unsaturated within counted).1

theorem chargedTotal (within : slot < maxProcesses) (counted : field.counted = true) :
    q'.total a field = q.total a field + act.cost q a field := by
  have each : q'.total a field = ∑ i ∈ Finset.range maxProcesses,
      (q.ledger ⟨a,i,field⟩ + if i = slot then act.cost q a field else 0) :=
    Finset.sum_congr rfl fun i inside =>
      (chargedExactly charged unsaturated (Finset.mem_range.mp inside) counted).2
  rw [each]
  exact sumAdded (Finset.mem_range.mpr within) fun _ => rfl

end totals

section conserved
variable {q q' : Queue} {a : Nat}

theorem accountedConserved {slot : Slot} {act : Act} (within : slot < maxProcesses) (valid : q.Valid)
    (entry : Accounted (some slot) q act q') (conserved : q.Unsaturated a → q.Conserved a)
    (unsaturated : q'.Unsaturated a) : q'.Conserved a := by
  obtain ⟨pending,active,pendingFull⟩ := conserved (unsaturatedBefore entry.charged unsaturated)
  have total {field : Metric} (counted : field.counted = true) :=
    chargedTotal entry.charged unsaturated within counted
  have lists := @changeCounts q q' (fun item => item.path == a) act valid entry.change
    fun _ _ carries => by rw [carries.path]
  have full := @changeCounts q q' (fun item => item.path == a && item.purgeAll) act valid entry.change
    fun _ _ carries => by rw [carries.path,carries.purgeAll]
  have enqueued := @costPath q act a .enqueued act.enters fun _ => rfl
  have started := @costPath q act a .started act.starts fun _ => rfl
  have finished := @costPath q act a .finished act.stops fun _ => rfl
  have enqueuedFull := @costFull q act a .enqueuedFull act.enters fun _ => rfl
  have startedFull := @costFull q act a .startedFull act.starts fun _ => rfl
  refine ⟨?_,?_,?_⟩
  · rw [total rfl,total rfl,enqueued,started,pending]
    simp only [Queue.pendingOf]
    omega
  · rw [total rfl,total rfl,started,finished,active]
    simp only [Queue.activeOf]
    omega
  · rw [total rfl,total rfl,enqueuedFull,startedFull,pendingFull]
    simp only [Queue.pendingFullOf]
    omega

theorem untouchedConserved (stats : ∀ i field, field.counted = true →
      (q'.path a).stats i field = (q.path a).stats i field) (pending : q'.pending = q.pending)
    (active : q'.active = q.active) (items : q'.items = q.items)
    (conserved : q.Unsaturated a → q.Conserved a) (unsaturated : q'.Unsaturated a) : q'.Conserved a := by
  have total {field : Metric} (counted : field.counted = true) : q'.total a field = q.total a field :=
    Finset.sum_congr rfl fun i _ => congrArg UInt64.toNat (stats i field counted)
  have count (select : Item → Bool) (tasks : List TaskId) : q'.count select tasks = q.count select tasks :=
    countKept fun t _ => by rw [items]
  obtain ⟨entered,started,full⟩ := conserved fun i within field counted =>
    stats i field counted ▸ unsaturated i within field counted
  refine ⟨?_,?_,?_⟩
  · rw [total rfl,total rfl,entered,Queue.pendingOf,Queue.pendingOf,count,pending]
  · rw [total rfl,total rfl,started,Queue.activeOf,Queue.activeOf,count,active]
  · rw [total rfl,total rfl,full,Queue.pendingFullOf,Queue.pendingFullOf,count,pending]

theorem sectionConserved {procs : List Process} (within : ∀ p ∈ procs, p.slot < maxProcesses)
    (section_ : Section procs q q') (kept : q.Valid ∧ ∀ a, q.Unsaturated a → q.Conserved a) :
    q'.Valid ∧ ∀ a, q'.Unsaturated a → q'.Conserved a := by
  obtain ⟨valid,conserved⟩ := kept
  cases section_ with
  | accounted member entry =>
    exact ⟨changeValid valid entry.change,fun a => accountedConserved (within _ member) valid entry (conserved a)⟩
  | deregister _ =>
    exact ⟨registryValid valid _ _,
      fun a => @untouchedConserved q (deregister _ q) a (fun _ _ _ => rfl) rfl rfl rfl (conserved a)⟩

theorem sectionsConserved {procs : List Process} (within : ∀ p ∈ procs, p.slot < maxProcesses)
    (sections : Sections procs q q') (kept : q.Valid ∧ ∀ a, q.Unsaturated a → q.Conserved a) :
    q'.Valid ∧ ∀ a, q'.Unsaturated a → q'.Conserved a := by
  induction sections with
  | refl => exact kept
  | tail _ last ih => exact sectionConserved within last ih

end conserved

structure System.Metered (s : System) : Prop where
  valid : s.Valid
  seated : s.Seated
  conserved : ∀ a, s.queue.Unsaturated a → s.queue.Conserved a

section runs
variable {config : Config} {s : System}

theorem meteredInit (maxSize : Nat) (paths : List (Nat × Bytes)) (epochs : Nat → Epoch) :
    (systemInit maxSize paths epochs).Metered := by
  refine ⟨initSystemValid maxSize paths epochs,by simp [System.Seated,systemInit],fun a _ => ?_⟩
  have total (field : Metric) : (systemInit maxSize paths epochs).queue.total a field = 0 :=
    Finset.sum_eq_zero fun _ _ => rfl
  exact ⟨by rw [total,total]; rfl,by rw [total,total]; rfl,by rw [total,total]; rfl⟩

theorem meteredStep (metered : s.Metered) (e : WorkerEvent) : (s.step config e).1.Metered := by
  have valid := @stepKeepsValid config s metered.valid e
  have stepped := @stepStepped config s metered.valid e
  refine ⟨valid,seatedStepped metered.seated stepped,?_⟩
  generalize (s.step config e).1 = s' at stepped
  cases stepped with
  | started _ _ _ init =>
    obtain ⟨pending,active,_,_,_,_,items,paths,_⟩ := initWorkerSpec init
    intro a
    refine untouchedConserved (fun i field counted => ?_) pending active items (metered.conserved a)
    exact (paths a).stats i field (by rintro rfl; simp [Metric.counted] at counted)
  | worked _ sections =>
    exact (sectionsConserved (fun p member => (metered.seated p member).1) sections
      ⟨metered.valid.queue,metered.conserved⟩).2

theorem meteredRun (metered : s.Metered) (events : List WorkerEvent) :
    ((systemMachine config).after s events).Metered :=
  (systemMachine config).invariant (P := System.Metered) (fun _ e metered => meteredStep metered e) metered events

end runs

section snapshot
variable {q : Queue} {a : Nat}

theorem statSumTotal (field : Metric) : (statSum q a field).toNat = min (q.total a field) counterMax := by
  have upTo (n : Nat) : ((List.range n).foldl (fun sum slot =>
      sum + min ((q.path a).stats slot field) (0xFFFFFFFFFFFFFFFF - sum)) (0 : UInt64)).toNat =
      min (∑ slot ∈ Finset.range n, q.ledger ⟨a,slot,field⟩) counterMax := by
    induction n with
    | zero => rfl
    | succ n ih =>
      rw [List.range_succ,List.foldl_append,List.foldl_cons,List.foldl_nil,saturatingSum,ih,Finset.sum_range_succ]
      change min (_ + q.ledger ⟨a,n,field⟩) counterMax = _
      omega
  exact upTo maxProcesses

theorem booksBelow (below : ∀ field, field.counted = true → q.total a field < counterMax) :
    q.Unsaturated a ∧ q.Summable a := by
  refine ⟨fun i within field counted => (capLedger q i).mpr fun full => ?_,fun field counted => (below field counted).le⟩
  have part : q.ledger ⟨a,i,field⟩ ≤ q.total a field :=
    Finset.single_le_sum (f := fun i => q.ledger ⟨a,i,field⟩) (fun _ _ => Nat.zero_le _) (Finset.mem_range.mpr within)
  have small := below field counted
  omega

theorem clampedDifference (x y : UInt64) : (x - min y x).toNat = x.toNat - y.toNat := by
  change (x - if y ≤ x then y else x).toNat = _
  split
  · rename_i fits
    exact UInt64.toNat_sub_of_le _ _ fits
  · rename_i beyond
    rw [UInt64.le_iff_toNat_le] at beyond
    rw [UInt64.sub_self]
    exact (Nat.sub_eq_zero_of_le (Nat.le_of_not_le beyond)).symm

theorem conservedDifferences (conserved : q.Conserved a) :
    (q.total a .enqueued : Int) - q.total a .started = q.pendingOf a ∧
    (q.total a .started : Int) - q.total a .finished = q.activeOf a ∧
    (q.total a .enqueuedFull : Int) - q.total a .startedFull = q.pendingFullOf a := by
  obtain ⟨pending,active,pendingFull⟩ := conserved
  omega

theorem snapshotExact (conserved : q.Conserved a) (summable : q.Summable a) (now : UInt64) :
    let cache := (queueStatusSnapshot now (some a) q).cache
    cache.pending.toNat = q.pendingOf a ∧ cache.active.toNat = q.activeOf a ∧
    cache.pendingFull.toNat = q.pendingFullOf a := by
  have sum {field : Metric} (counted : field.counted = true) : (statSum q a field).toNat = q.total a field := by
    rw [statSumTotal,min_eq_left (summable field counted)]
  refine ⟨?_,?_,?_⟩
  · change (statSum q a .enqueued - min (statSum q a .started) (statSum q a .enqueued)).toNat = _
    rw [clampedDifference,sum rfl,sum rfl,conserved.pending,Nat.add_sub_cancel_left]
  · change (statSum q a .started - min (statSum q a .finished) (statSum q a .started)).toNat = _
    rw [clampedDifference,sum rfl,sum rfl,conserved.active,Nat.add_sub_cancel_left]
  · change (statSum q a .enqueuedFull - min (statSum q a .startedFull) (statSum q a .enqueuedFull)).toNat = _
    rw [clampedDifference,sum rfl,sum rfl,conserved.pendingFull,Nat.add_sub_cancel_left]

theorem pendingByPath (valid : q.Valid) : ∑ a ∈ q.paths.toFinset, q.pendingOf a = q.size := by
  have home (t : TaskId) (waiting : t ∈ q.pending) : ∃ item, q.items t = some item ∧ item.path ∈ q.paths := by
    obtain ⟨item,here⟩ := Option.isSome_iff_exists.mp ((valid.cells t).mpr (.inl waiting))
    exact ⟨item,here,valid.placed t item here⟩
  have counted := @countedByHome Nat _ q.paths.toFinset TaskId q.pending (fun t => ((q.items t).map Item.path).getD 0)
    fun t waiting => by
      obtain ⟨item,here,placed⟩ := home t waiting
      simpa [here] using placed
  rw [valid.size,counted]
  refine Finset.sum_congr rfl fun a _ => List.countP_congr fun t waiting => ?_
  obtain ⟨item,here,_⟩ := home t waiting
  simp [here]

end snapshot

theorem metricsConserve (config : Config) (maxSize : Nat) (paths : List (Nat × Bytes)) (epochs : Nat → Epoch)
    (events : List WorkerEvent) :
    let q := ((systemMachine config).after (systemInit maxSize paths epochs) events).queue
    (∀ a, q.Unsaturated a →
      (q.total a .enqueued : Int) - q.total a .started = q.pendingOf a ∧
      (q.total a .started : Int) - q.total a .finished = q.activeOf a ∧
      (q.total a .enqueuedFull : Int) - q.total a .startedFull = q.pendingFullOf a) ∧
    (∀ a now, q.Unsaturated a → q.Summable a →
      let cache := (queueStatusSnapshot now (some a) q).cache
      cache.pending.toNat = q.pendingOf a ∧ cache.active.toNat = q.activeOf a ∧
      cache.pendingFull.toNat = q.pendingFullOf a) ∧
    (∑ a ∈ q.paths.toFinset, q.pendingOf a = q.size) ∧
    ∀ now, (∀ a ∈ q.paths, q.Unsaturated a ∧ q.Summable a) →
      ∑ a ∈ q.paths.toFinset, (queueStatusSnapshot now (some a) q).cache.pending.toNat = q.size := by
  intro q
  have metered := @meteredRun config _ (meteredInit maxSize paths epochs) events
  have size := pendingByPath metered.valid.queue
  refine ⟨fun a unsaturated => conservedDifferences (metered.conserved a unsaturated),
    fun a now unsaturated summable => snapshotExact (metered.conserved a unsaturated) summable now,size,
    fun now all => ?_⟩
  rw [← size]
  refine Finset.sum_congr rfl fun a inside => ?_
  obtain ⟨unsaturated,summable⟩ := all a (List.mem_toFinset.mp inside)
  exact (snapshotExact (metered.conserved a unsaturated) summable now).1

def crashRun : List WorkerEvent :=
  [.start 7 0 false [0],.start 8 1 false [0],.enqueue 7 sitePurge ⟨true,true,some 5,[some 8,some 9]⟩,.take 7 10 true false,
    .gone 7,.recover 8 11 true fun _ => false]

def crashQueue : Queue :=
  ((systemMachine siteConfig).after (systemInit 4 [(1,[47,99])] fun _ => siteEpoch) crashRun).queue

theorem crashBooks : crashQueue.Unsaturated 1 ∧ crashQueue.Summable 1 := by
  have small : ∀ field ∈ [Metric.enqueued,.enqueuedFull,.started,.startedFull,.finished],
      crashQueue.total 1 field < counterMax := by decide +kernel
  refine booksBelow fun field counted => small field ?_
  cases field <;> simp [Metric.counted] at counted ⊢

theorem crashMetrics :
    let cache := (queueStatusSnapshot 12 (some 1) crashQueue).cache
    ((crashQueue.total 1 .enqueued : Int) - crashQueue.total 1 .started = crashQueue.pendingOf 1 ∧
      (crashQueue.total 1 .started : Int) - crashQueue.total 1 .finished = crashQueue.activeOf 1 ∧
      (crashQueue.total 1 .enqueuedFull : Int) - crashQueue.total 1 .startedFull = crashQueue.pendingFullOf 1) ∧
    (cache.pending.toNat = crashQueue.pendingOf 1 ∧ cache.active.toNat = crashQueue.activeOf 1 ∧
      cache.pendingFull.toNat = crashQueue.pendingFullOf 1) ∧
    ∑ a ∈ crashQueue.paths.toFinset, (queueStatusSnapshot 12 (some a) crashQueue).cache.pending.toNat =
      crashQueue.size := by
  obtain ⟨differences,snapshot,_,sizes⟩ := metricsConserve siteConfig 4 [(1,[47,99])] (fun _ => siteEpoch) crashRun
  refine ⟨differences 1 crashBooks.1,snapshot 1 12 crashBooks.1 crashBooks.2,sizes 12 fun a inside => ?_⟩
  have only : crashQueue.paths = [1] := by decide +kernel
  have same : a = 1 := by
    change a ∈ crashQueue.paths at inside
    rw [only] at inside
    exact List.mem_singleton.mp inside
  subst same
  exact crashBooks

end CachePurge
