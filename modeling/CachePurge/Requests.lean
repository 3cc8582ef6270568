import CachePurge.Dispatch
import CachePurge.QueueStatus
import CachePurge.StatSlots

/-! Purge requests that wait for admission. A request whose admission has to be tried again
stays with its worker: a timer tries it every 10 ms, a cleanup handler of the core ends it
when the client goes away, and the WAITING counter of the worker's slot says how many wait. -/
namespace CachePurge
open General

/- An ngx_http_cache_purge_request_t whose cleanup handler is set; its timer is armed. -/
structure Waiter where
  pid : Pid
  request : Nat
  purge : Purge
  conf : DispatchConf
  path : Option Nat
  deriving DecidableEq, Repr

structure Front where
  system : System
  waiters : List Waiter

/- The outcomes of ngx_http_cleanup_add and of ngx_handle_read_event, if it is called. -/
structure DeferAnswers where
  cleanup : Bool
  reading : Bool
  deriving DecidableEq, Repr

inductive FrontEvent where
  | worker (e : WorkerEvent)
  | arrive (pid : Pid) (request : Nat) (conf : DispatchConf) (purge : Purge) (o : Outcome) (answers : DeferAnswers)
  | timer (request : Nat) (now : UInt64) (o : Outcome)
  | close (request : Nat)

inductive FrontOutput where
  | queue (o : QueueOutput)
  | arrived (request : Nat)
  | admitted (request : Nat) (o : QueueOutput)
  | replied (request : Nat) (d : Dispatched)
  | closed (request : Nat)
  | lost (request : Nat)
  deriving DecidableEq, Repr

def Front.waiter (f : Front) (request : Nat) : Option Waiter := f.waiters.find? fun w => w.request == request

def Front.running (f : Front) (pid : Pid) : Option Process := (f.system.find pid).filter fun p => !p.exited

def Front.modifyQueue (f : Front) (g : Queue → Queue) : Front := {f with system := {f.system with queue := g f.system.queue}}

def Front.drop (f : Front) (request : Nat) : Front := {f with waiters := f.waiters.filter fun w => w.request != request}

section machine
variable (config : Config)

/- One call of ngx_http_cache_purge_enqueue for a request. -/
def admission (p : Process) (request : Nat) (purge : Purge) (o : Outcome) (f : Front) : Rc × Front × List FrontOutput :=
  let rc := (enqueue config.platform config.names (some p.slot) p.leaving purge o f.system.queue f.system.zones).1
  let stepped := f.system.step config (.enqueue p.pid purge o)
  (rc,{f with system := stepped.1},stepped.2.map (.admitted request))

def deferRequest (p : Process) (w : Waiter) (answers : DeferAnswers) (f : Front) : Front × List FrontOutput :=
  if !answers.cleanup then (f,[.replied w.request .internalError])
  else if !answers.reading then (f,[.replied w.request .internalError])
  else
    let path := f.system.queue.findPath config.platform w.purge.cachePath
    let counted := f.modifyQueue fun q => match path with
      | none => q
      | some a => (q.statWait (some p.slot) (some a) true).statAdd (some p.slot) a .overflow 1
    ({counted with waiters := counted.waiters ++ [{w with path := path}]},[])

def arriveStep (p : Process) (w : Waiter) (o : Outcome) (answers : DeferAnswers) (f : Front) :
    Front × List FrontOutput :=
  let tried := admission config p w.request w.purge o f
  match dispatch w.conf w.purge.key tried.1 with
  | .deferred =>
    let outcome := deferRequest config p w answers tried.2.1
    (outcome.1,.arrived w.request :: tried.2.2 ++ outcome.2)
  | d => (tried.2.1,.arrived w.request :: tried.2.2 ++ [.replied w.request d])

def timerStep (p : Process) (w : Waiter) (now : UInt64) (o : Outcome) (f : Front) : Front × List FrontOutput :=
  let tried := admission config p w.request {w.purge with now := now} o f
  if tried.1 = .again then tried.2
  else ((tried.2.1.drop w.request).modifyQueue (Queue.statWait (some p.slot) w.path false),
    tried.2.2 ++ [.replied w.request (enqueueReply w.conf tried.1)])

def Front.admits (f : Front) (request : Nat) (conf : DispatchConf) (purge : Purge) : Bool :=
  (f.waiter request).isNone && purge.ns == conf.ns &&
    purge.purgeAll == conf.purgeAll && purge.expected.isNone && !selectorTooLong conf purge.key &&
    !conf.refresh && conf.queues purge.key

def Front.step (f : Front) : FrontEvent → Front × List FrontOutput
  | .worker (.gone pid) =>
    (⟨(f.system.step config (.gone pid)).1,f.waiters.filter fun w => w.pid != pid⟩,
      (f.waiters.filter fun w => w.pid == pid).map fun w => .lost w.request)
  | .worker e =>
    let stepped := f.system.step config e
    ({f with system := stepped.1},stepped.2.map .queue)
  | .arrive pid request conf purge o answers => match f.running pid with
    | none => (f,[])
    | some p =>
      if f.admits request conf purge then arriveStep config p ⟨pid,request,purge,conf,none⟩ o answers f
      else (f,[])
  | .timer request now o => match f.waiter request with
    | none => (f,[])
    | some w => match f.running w.pid with
      | none => (f,[])
      | some p => timerStep config p w now o f
  | .close request => match f.waiter request with
    | none => (f,[])
    | some w => match f.running w.pid with
      | none => (f,[])
      | some p => ((f.drop request).modifyQueue (Queue.statWait (some p.slot) w.path false),[.closed request])

def frontMachine : Machine Front FrontEvent FrontOutput := ⟨Front.step config⟩

def frontInit (maxSize : Nat) (paths : List (Nat × Bytes)) (epochs : Nat → Epoch) : Front :=
  ⟨systemInit maxSize paths epochs,[]⟩

@[simp] theorem frontStep (f : Front) (e : FrontEvent) : (frontMachine config).step f e = f.step config e := rfl

end machine

section gauges

def Unwaited (q q' : Queue) : Prop := ∀ a i, (q'.path a).stats i .waiting = (q.path a).stats i .waiting

variable {slot : Option Slot} {q q' : Queue}

theorem unwaitedTrans {q'' : Queue} (left : Unwaited q q') (right : Unwaited q' q'') : Unwaited q q'' :=
  fun a i => (right a i).trans (left a i)

theorem statAddWaiting {field : Metric} (apart : field ≠ .waiting) (slot : Option Slot) (a b : Nat) (value : UInt64)
    (q : Queue) (i : Slot) : ((q.statAdd slot a field value).path b).stats i .waiting = (q.path b).stats i .waiting := by
  cases slot with
  | none => rfl
  | some slot =>
    simp only [Queue.statAdd,Queue.modifyPath]
    rcases eq_or_ne b a with rfl | other
    · rw [Function.update_self]
      rcases eq_or_ne i slot with rfl | elsewhere
      · simp [apart.symm]
      · simp [elsewhere]
    · rw [Function.update_of_ne other]

theorem indexWaiting (f : List TaskId → List TaskId) (a b : Nat) (q : Queue) (i : Slot) :
    ((q.modifyPath a fun path => {path with index := f path.index}).path b).stats i .waiting =
      (q.path b).stats i .waiting := by
  simp only [Queue.modifyPath]
  rcases eq_or_ne b a with rfl | other
  · rw [Function.update_self]
  · rw [Function.update_of_ne other]

theorem enqueueUnwaited {platform : Platform} {names : Nat → Name} {exiting : Bool} {p : Purge} {o : Outcome}
    {zones : Nat → Zone} : Unwaited q (enqueue platform names slot exiting p o q zones).2.1 := by
  intro b i
  have renewed (a : Nat) (t : TaskId) : ((renewTask slot p a t q).path b).stats i .waiting = (q.path b).stats i .waiting := by
    unfold renewTask
    dsimp only
    split <;> simp (disch := decide) [statAddWaiting,Queue.modify]
  have admitted (a : Nat) (t : TaskId) :
      ((admitTask names slot p a t (q.put t .zeroed)).path b).stats i .waiting = (q.path b).stats i .waiting := by
    unfold admitTask
    dsimp only
    split <;> simp (disch := decide) [statAddWaiting,indexWaiting (· ++ [t]),Queue.put]
  have ways := @enqueueCases platform names slot p o q zones exiting
  generalize enqueue platform names slot exiting p o q zones = out at ways ⊢
  cases ways with
  | refused other declined => rfl
  | renewed found indexed published => exact renewed _ _
  | admitted found absent room fresh published => exact admitted _ _

theorem recoverUnwaited (alive : Pid → Bool) (now : UInt64) (locked : Bool) :
    Unwaited q (recover slot alive now locked q).1 := by
  refine @recoverInvariant slot alive now (fun _ q' => Unwaited q q') (fun _ q' kept => unwaitedTrans kept ?_) [] q
    (fun _ _ => rfl) locked
  intro b i
  unfold recoverOne
  split
  · rfl
  split
  · rfl
  split
  · rfl
  · simp (disch := decide) [statAddWaiting,Queue.modify]

theorem takeUnwaited {names : Nat → Name} {namespaces : List Nat} {pid : Pid} {slot : Slot}
    {leaving locked poolFound : Bool} {now : UInt64} {w : Work} :
    Unwaited q (takeTask names namespaces pid slot leaving now locked poolFound q w).2.1 := by
  intro b i
  have ways := @takeCases slot now names namespaces pid q w leaving locked poolFound
  generalize takeTask names namespaces pid slot leaving now locked poolFound q w = taken at ways ⊢
  cases ways with
  | idle code => rfl
  | turned selected => rfl
  | started staying selected here =>
    unfold startTask
    dsimp only
    split <;> simp (disch := decide) [statAddWaiting,Queue.modify]

theorem endUnwaited {slot : Slot} {now : UInt64} {t : TaskId} {item : Item} {w : Work} :
    Unwaited q (endTask slot now t item w q) := by
  intro b i
  have settled : ((settleTask slot now t item w q).2.path b).stats i .waiting = (q.path b).stats i .waiting := by
    have ways := @settleCases slot now t item q w
    generalize settleTask slot now t item w q = settled at ways ⊢
    cases ways with
    | again | done => rfl
    | retried | exhausted => simp (disch := decide) [statAddWaiting,Queue.modify]
  unfold endTask
  dsimp only
  split
  · simp (disch := decide) [statAddWaiting,Queue.modify,settled]
  · refine (indexWaiting (fun index => index.erase t) item.path b _ i).trans ?_
    simp (disch := decide) [statAddWaiting,settled]

theorem finishUnwaited {slot : Slot} {final locked : Bool} {now : UInt64} {w : Work} :
    Unwaited q (finishTask slot final now locked q w).2.1 := by
  unfold finishTask
  split
  · exact fun _ _ => rfl
  · split
    · exact fun _ _ => rfl
    · split
      · exact fun _ _ => rfl
      · exact endUnwaited

theorem exitUnwaited {slot : Slot} {now closed : UInt64} {w : Work} :
    Unwaited q (exitWorker slot now closed q w).1 := by
  unfold exitWorker
  split
  · exact fun _ _ => rfl
  · dsimp only [deregister]
    split
    · exact @finishUnwaited q slot true true now (w.closing closed)
    · exact fun _ _ => rfl

theorem initWaiting {current : Option Slot} {pid : Pid} {slot : Slot} (init : initWorker current pid slot q = some q')
    (a : Nat) (i : Slot) : (q'.path a).stats i .waiting =
      if i = slot ∧ a ∈ q.paths then 0 else (q.path a).stats i .waiting := by
  have cleared : ∀ (paths : List Nat) (q : Queue), ((paths.foldl (fun q a => q.modifyPath a fun path => {path with
      stats := Function.update path.stats slot (Function.update (path.stats slot) .waiting 0)}) q).path a).stats i .waiting =
        if i = slot ∧ a ∈ paths then 0 else (q.path a).stats i .waiting := by
    intro paths
    induction paths with
    | nil => simp
    | cons b rest ih =>
      intro q
      rw [List.foldl_cons,ih]
      simp only [Queue.modifyPath,List.mem_cons]
      by_cases mine : i = slot <;> by_cases here : a = b <;> by_cases later : a ∈ rest <;>
        simp [mine,here,later]
  unfold initWorker at init
  split at init
  · contradiction
  · dsimp only at init
    split at init
    · contradiction
    · cases Option.some.inj init
      exact cleared q.paths _

end gauges

section steps
variable {config : Config} {s : System}

theorem processUnwaited (p : Process) (e : WorkerEvent) : Unwaited s.queue (processStep config p s e).1.queue := by
  cases e with
  | enqueue pid purge o => exact enqueueUnwaited
  | recover pid now locked claims => exact recoverUnwaited _ now locked
  | take pid now locked poolFound =>
    simp only [processStep,takeStep]
    split
    · exact fun _ _ => rfl
    · exact takeUnwaited
  | finish pid now locked =>
    simp only [processStep,finishStep]
    split
    · exact fun _ _ => rfl
    · split
      · exact finishUnwaited
      · exact fun _ _ => rfl
  | exit pid now closed => exact exitUnwaited
  | post pid posted =>
    simp only [processStep]
    split <;> exact fun _ _ => rfl
  | notify pid =>
    simp only [processStep]
    split <;> exact fun _ _ => rfl
  | slice pid again counters =>
    simp only [processStep]
    split <;> exact fun _ _ => rfl
  | _ => exact fun _ _ => rfl

def System.seats (s : System) : List (Pid × Slot) := s.procs.map fun p => (p.pid,p.slot)

theorem reviseSeats (pid : Pid) {f : Process → Process} (keeps : Process.Keeps f) (s : System) :
    (s.revise pid f).seats = s.seats :=
  reviseMap (g := fun p => (p.pid,p.slot)) pid (fun p => by rw [keeps.pid,keeps.slot]) s.procs

theorem processSeats (p : Process) (e : WorkerEvent) : (processStep config p s e).1.seats = s.seats := by
  cases e with
  | leave pid => exact reviseSeats pid (f := fun p => {p with leaving := true}) ⟨fun _ => rfl,fun _ => rfl,fun _ h => h⟩ s
  | take pid now locked poolFound =>
    simp only [processStep,takeStep]
    split
    · rfl
    · exact reviseSeats p.pid (workKeeps _) _
  | post pid posted =>
    simp only [processStep]
    split
    · exact reviseSeats pid (workKeeps _) s
    · rfl
  | notify pid =>
    simp only [processStep]
    split
    · exact reviseSeats pid (workKeeps _) s
    · rfl
  | slice pid again counters =>
    simp only [processStep]
    split
    · exact reviseSeats pid (workKeeps _) s
    · rfl
  | finish pid now locked =>
    simp only [processStep,finishStep]
    split
    · rfl
    · split
      · exact reviseSeats p.pid (workKeeps _) _
      · rfl
  | exit pid now closed =>
    let leave (r : Process) : Process := {r with work := (exitWorker p.slot now closed s.queue p.work).2, exited := true}
    exact reviseSeats p.pid (f := leave) ⟨fun _ => rfl,fun _ => rfl,fun _ h => by simp [leave] at h⟩ _
  | _ => rfl

theorem turnPaths {picked : Option (Process × Item)} {s' : System} {out : List QueueOutput}
    (turn : Turn config picked s out s') :
    s'.queue.paths = s.queue.paths := by
  cases turn with
  | start _ _ init => exact (initWorkerSpec init).2.2.2.2.2.1
  | shuffle change | accept change | renew _ _ _ change | take _ _ _ _ _ change | requeue _ _ _ _ change
  | retire _ _ _ _ _ _ _ change | recovered _ _ _ change => exact (changeFrame change).paths
  | _ => rfl

theorem stepPaths (valid : s.Valid) (e : WorkerEvent) : (s.step config e).1.queue.paths = s.queue.paths :=
  Trace.keeps (P := fun _ s' => s'.queue.paths = s.queue.paths)
    (fun _ _ _ _ same turn => (turnPaths turn).trans same) (stepTurns valid e) [] rfl

theorem stepGauges (e : WorkerEvent) {p : Process} (member : p ∈ (s.step config e).1.procs) :
    (∃ r ∈ s.procs, r.pid = p.pid ∧ r.slot = p.slot ∧ ∀ a,
      ((s.step config e).1.queue.path a).stats p.slot .waiting = (s.queue.path a).stats p.slot .waiting) ∨
    ((∀ r ∈ s.procs, r.pid ≠ p.pid) ∧ ∀ a ∈ s.queue.paths,
      ((s.step config e).1.queue.path a).stats p.slot .waiting = 0) := by
  have seated {s' : System} (seats : s'.seats = s.seats) (unwaited : Unwaited s.queue s'.queue) (here : p ∈ s'.procs) :
      ∃ r ∈ s.procs, r.pid = p.pid ∧ r.slot = p.slot ∧ ∀ a,
        (s'.queue.path a).stats p.slot .waiting = (s.queue.path a).stats p.slot .waiting := by
    have seat : (p.pid,p.slot) ∈ s.seats := seats ▸ List.mem_map_of_mem (f := fun p => (p.pid,p.slot)) here
    obtain ⟨r,there,same⟩ := List.mem_map.mp seat
    simp only [Prod.mk.injEq] at same
    exact ⟨r,there,same.1,same.2,fun a => unwaited a p.slot⟩
  have ways := stepCases config s e
  generalize s.step config e = out at ways member ⊢
  cases ways with
  | idle => exact .inl (seated rfl (fun _ _ => rfl) member)
  | started named pids slots init =>
    rcases List.mem_append.mp member with old | new
    · refine .inl ⟨p,old,rfl,rfl,fun a => ?_⟩
      rw [initWaiting init,if_neg fun both => slots p old both.1]
    · cases List.mem_singleton.mp new
      exact .inr ⟨pids,fun a here => by rw [initWaiting init,if_pos ⟨rfl,here⟩]⟩
  | gone => exact .inl ⟨p,List.mem_of_mem_filter member,rfl,rfl,fun _ => rfl⟩
  | threaded found => exact .inl (seated (reviseSeats _ (workKeeps _) s) (fun _ _ => rfl) member)
  | processed found running => exact .inl (seated (processSeats _ e) (processUnwaited _ e) member)

end steps

section waits
variable {q : Queue} {slot : Slot} {path : Option Nat} {up : Bool}

theorem statWaitChange : Change q .shuffle (q.statWait (some slot) path up) := by
  cases path with
  | none => exact .shuffle ⟨rfl,rfl,fun _ => rfl,rfl,rfl,rfl⟩ .rfl .rfl rfl rfl rfl fun _ => rfl
  | some a =>
    have same (b : Nat) : ((q.statWait (some slot) (some a) up).path b).name = (q.path b).name ∧
        ((q.statWait (some slot) (some a) up).path b).index = (q.path b).index := by
      simp only [Queue.statWait,Queue.modifyPath]
      rcases eq_or_ne b a with rfl | other
      · simp
      · simp [other]
    exact .shuffle ⟨rfl,rfl,fun b => (same b).1,rfl,rfl,rfl⟩ .rfl .rfl rfl rfl rfl fun b => (same b).2

theorem statWaitWaiting (b : Nat) (i : Slot) : ((q.statWait (some slot) path up).path b).stats i .waiting =
    if i = slot ∧ path = some b then (StatUpdate.wait up).next ((q.path b).stats i .waiting)
    else (q.path b).stats i .waiting := by
  cases path with
  | none => simp [Queue.statWait]
  | some a =>
    simp only [Queue.statWait,Queue.modifyPath,Option.some.injEq]
    rcases eq_or_ne b a with rfl | other
    · rw [Function.update_self]
      rcases eq_or_ne i slot with rfl | elsewhere
      · simp
      · simp [elsewhere]
    · rw [Function.update_of_ne other,if_neg fun both => other both.2.symm]

end waits

namespace Front

def waiting (f : Front) (pid : Pid) (a : Nat) : Nat := f.waiters.countP fun w => w.pid == pid && w.path == some a

def gauge (f : Front) (slot : Slot) (a : Nat) : UInt64 := (f.system.queue.path a).stats slot .waiting

structure Valid (f : Front) : Prop where
  system : f.system.Valid
  slots : f.system.Seated
  numbered : (f.waiters.map Waiter.request).Nodup
  seated : ∀ w ∈ f.waiters, ∃ p ∈ f.system.procs, p.pid = w.pid
  placed : ∀ w ∈ f.waiters, ∀ a, w.path = some a → a ∈ f.system.queue.paths
  gauges : ∀ p ∈ f.system.procs, ∀ a ∈ f.system.queue.paths, (f.gauge p.slot a).toNat = f.waiting p.pid a

end Front

section fronts
variable {config : Config} {f : Front}

theorem waiterMember {request : Nat} {w : Waiter} (found : f.waiter request = some w) :
    w ∈ f.waiters ∧ w.request = request :=
  ⟨List.mem_of_find?_eq_some found,by simpa using List.find?_some found⟩

theorem runningMember {pid : Pid} {p : Process} (found : f.running pid = some p) :
    f.system.find pid = some p ∧ p ∈ f.system.procs ∧ p.pid = pid ∧ p.exited = false := by
  obtain ⟨found,running⟩ := Option.filter_eq_some_iff.mp found
  exact ⟨found,(findMember found).1,(findMember found).2,by simpa using running⟩

theorem stepStays {s : System} {e : WorkerEvent} {p : Process} (member : p ∈ s.procs) (stays : e ≠ .gone p.pid) :
    ∃ r ∈ (s.step config e).1.procs, r.pid = p.pid := by
  have seated {s' : System} (seats : s'.seats = s.seats) : ∃ r ∈ s'.procs, r.pid = p.pid := by
    have seat : (p.pid,p.slot) ∈ s'.seats := seats ▸ List.mem_map_of_mem (f := fun p => (p.pid,p.slot)) member
    obtain ⟨r,there,same⟩ := List.mem_map.mp seat
    exact ⟨r,there,congrArg Prod.fst same⟩
  have ways := stepCases config s e
  generalize s.step config e = out at ways ⊢
  cases ways with
  | idle => exact ⟨p,member,rfl⟩
  | started => exact ⟨p,List.mem_append_left _ member,rfl⟩
  | gone => exact ⟨p,List.mem_filter.mpr ⟨member,by simpa using fun same => stays (by rw [same])⟩,rfl⟩
  | threaded => exact seated (reviseSeats _ (workKeeps _) s)
  | processed => exact seated (processSeats _ e)

theorem workerFront (valid : f.Valid) {e : WorkerEvent} (stays : ∀ pid, e ≠ .gone pid) :
    ({f with system := (f.system.step config e).1} : Front).Valid := by
  have paths := @stepPaths config f.system valid.system e
  refine ⟨stepKeepsValid valid.system e,seatedStepped valid.slots (stepStepped valid.system e),valid.numbered,fun w member => ?_,fun w member a found => ?_,
    fun p member a here => ?_⟩
  · obtain ⟨p,there,mine⟩ := valid.seated w member
    obtain ⟨r,inside,same⟩ := @stepStays config f.system e p there (stays p.pid)
    exact ⟨r,inside,same.trans mine⟩
  · rw [paths]
    exact valid.placed w member a found
  · rw [paths] at here
    rcases stepGauges e member with ⟨r,there,pid,slot,same⟩ | ⟨fresh,cleared⟩
    · have before := valid.gauges r there a here
      rw [slot,pid] at before
      exact (congrArg UInt64.toNat (same a)).trans before
    · -- The process has just started: no request waits there yet.
      have none_ : f.waiting p.pid a = 0 := List.countP_eq_zero.mpr fun w waits both => by
        obtain ⟨r,there,mine⟩ := valid.seated w waits
        simp only [Bool.and_eq_true,beq_iff_eq] at both
        exact fresh r there (mine.trans both.1)
      exact (congrArg UInt64.toNat (cleared a here)).trans none_.symm

theorem goneFront (valid : f.Valid) (pid : Pid) :
    (⟨(f.system.step config (.gone pid)).1,f.waiters.filter fun w => w.pid != pid⟩ : Front).Valid := by
  refine ⟨stepKeepsValid valid.system _,seatedStepped valid.slots (@stepStepped config _ valid.system _),
    valid.numbered.sublist (List.filter_sublist.map _),fun w member => ?_,
    fun w member => valid.placed w (List.mem_of_mem_filter member),fun p member a here => ?_⟩
  · obtain ⟨waits,other⟩ := List.mem_filter.mp member
    obtain ⟨p,there,mine⟩ := valid.seated w waits
    exact ⟨p,List.mem_filter.mpr ⟨there,by rw [mine]; exact other⟩,mine⟩
  · obtain ⟨there,other⟩ := List.mem_filter.mp member
    refine (valid.gauges p there a here).trans ?_
    unfold Front.waiting
    rw [List.countP_filter]
    refine List.countP_congr fun w _ => ?_
    simp only [Bool.and_eq_true,beq_iff_eq,bne_iff_ne,iff_self_and] at other ⊢
    rintro ⟨same,_⟩
    rwa [same]

theorem gaugeFront (valid : f.Valid) {p : Process} (member : p ∈ f.system.procs) {path : Option Nat} {up : Bool}
    {waiters : List Waiter} (numbered : (waiters.map Waiter.request).Nodup)
    (seated : ∀ w ∈ waiters, w ∈ f.waiters ∨ w.pid = p.pid)
    (placed : ∀ w ∈ waiters, ∀ a, w.path = some a → a ∈ f.system.queue.paths)
    (others : ∀ pid a, ¬ (pid = p.pid ∧ path = some a) →
      waiters.countP (fun w => w.pid == pid && w.path == some a) = f.waiting pid a)
    (mine : ∀ a, path = some a → ((StatUpdate.wait up).next (f.gauge p.slot a)).toNat =
      waiters.countP fun w => w.pid == p.pid && w.path == some a) :
    ({f with waiters := waiters}.modifyQueue (Queue.statWait (some p.slot) path up)).Valid := by
  have change := @statWaitChange f.system.queue p.slot path up
  refine ⟨movedValid valid.system f.system.zones change (by simp [Act.ends]),valid.slots,numbered,fun w inside => ?_,
    fun w inside a found => ?_,fun r there a here => ?_⟩
  · rcases seated w inside with old | new
    · exact valid.seated w old
    · exact ⟨p,member,new.symm⟩
  · rw [Front.modifyQueue,(changeFrame change).paths]
    exact placed w inside a found
  · rw [Front.modifyQueue,(changeFrame change).paths] at here
    change (((f.system.queue.statWait (some p.slot) path up).path a).stats r.slot .waiting).toNat =
      waiters.countP fun w => w.pid == r.pid && w.path == some a
    rw [statWaitWaiting]
    split
    · rename_i both
      have same : r = p := List.inj_on_of_nodup_map valid.system.slots there member both.1
      subst same
      exact mine a both.2
    · rename_i apart
      rw [others r.pid a fun both => apart ⟨congrArg Process.slot (samePid valid.system.pids there member both.1),both.2⟩]
      exact valid.gauges r there a here

theorem overflowFront (valid : f.Valid) (slot : Slot) (a : Nat) :
    (f.modifyQueue fun q => q.statAdd (some slot) a .overflow 1).Valid := by
  have change : Change f.system.queue .shuffle (f.system.queue.statAdd (some slot) a .overflow 1) :=
    .shuffle ⟨by simp,by simp,by simp,by simp,by simp,by simp⟩ (by simp) (by simp) (by simp) (by simp) (by simp)
      (by simp)
  refine ⟨movedValid valid.system f.system.zones change (by simp [Act.ends]),valid.slots,valid.numbered,valid.seated,
    fun w member b found => ?_,fun p member b here => ?_⟩
  · rw [Front.modifyQueue,(changeFrame change).paths]
    exact valid.placed w member b found
  · rw [Front.modifyQueue,(changeFrame change).paths] at here
    refine (congrArg UInt64.toNat ?_).trans (valid.gauges p member b here)
    exact @statAddWaiting .overflow (by decide) (some slot) a b 1 f.system.queue p.slot

theorem joinFront (valid : f.Valid) {p : Process} (member : p ∈ f.system.procs) {w : Waiter} (mine : w.pid = p.pid)
    (fresh : ∀ r ∈ f.waiters, r.request ≠ w.request)
    (placed : ∀ a, w.path = some a → a ∈ f.system.queue.paths) (below : f.waiters.length + 1 < 2^64) :
    ({f with waiters := f.waiters ++ [w]}.modifyQueue (Queue.statWait (some p.slot) w.path true)).Valid := by
  have added {P : Waiter → Prop} (old : ∀ w ∈ f.waiters, P w) (new : P w) : ∀ r ∈ f.waiters ++ [w], P r := by
    intro r inside
    rcases List.mem_append.mp inside with there | last
    · exact old r there
    · rwa [List.mem_singleton.mp last]
  refine gaugeFront valid member ?_ (added (fun _ => .inl) (.inr mine))
    (added valid.placed placed) (fun pid a apart => ?_) fun a found => ?_
  · rw [List.map_append,List.nodup_append]
    refine ⟨valid.numbered,by simp,fun n inside m last => ?_⟩
    obtain ⟨r,there,rfl⟩ := List.mem_map.mp inside
    rw [List.map_cons,List.map_nil,List.mem_singleton] at last
    exact last ▸ fresh r there
  · rw [List.countP_append,Front.waiting,List.countP_singleton,if_neg,Nat.add_zero]
    simp only [Bool.and_eq_true,beq_iff_eq,not_and]
    exact fun same found => apart ⟨same.symm.trans mine,found⟩
  · have now := valid.gauges p member a (placed a found)
    have few : f.waiting p.pid a ≤ f.waiters.length := List.countP_le_length
    rw [List.countP_append,List.countP_singleton,if_pos (by simp [mine,found])]
    change (f.gauge p.slot a + 1).toNat = f.waiting p.pid a + 1
    rw [UInt64.toNat_add,now,show (1 : UInt64).toNat = 1 from rfl]
    omega

theorem dropCount {waiters : List Waiter} (numbered : (waiters.map Waiter.request).Nodup) {w : Waiter} (member : w ∈ waiters)
    (P : Waiter → Bool) : waiters.countP P =
      (waiters.filter fun r => r.request != w.request).countP P + if P w then 1 else 0 := by
  have alone : waiters.filter (fun r => r.request == w.request) = [w] := by
    have unique : ∀ r ∈ waiters, (r.request == w.request) = (r == w) := fun r there => by
      rw [Bool.eq_iff_iff,beq_iff_eq,beq_iff_eq]
      exact ⟨List.inj_on_of_nodup_map numbered there member,congrArg _⟩
    rw [List.filter_congr unique,List.filter_beq,List.count_eq_one_of_mem (List.Nodup.of_map _ numbered) member]
    rfl
  have split := List.countP_eq_countP_filter_add waiters P fun r => r.request == w.request
  rw [split,alone,List.countP_singleton,Nat.add_comm]
  rfl

theorem leaveFront (valid : f.Valid) {p : Process} (member : p ∈ f.system.procs) {w : Waiter} (waits : w ∈ f.waiters)
    (mine : w.pid = p.pid) : ((f.drop w.request).modifyQueue (Queue.statWait (some p.slot) w.path false)).Valid := by
  have counted := dropCount valid.numbered waits
  refine gaugeFront valid member (valid.numbered.sublist (List.filter_sublist.map _))
    (fun r inside => .inl (List.mem_of_mem_filter inside))
    (fun r inside => valid.placed r (List.mem_of_mem_filter inside)) (fun pid a apart => ?_) fun a found => ?_
  · rw [Front.waiting,counted,if_neg,Nat.add_zero]
    simp only [Bool.and_eq_true,beq_iff_eq,not_and]
    exact fun same found => apart ⟨same.symm.trans mine,found⟩
  · have now := valid.gauges p member a (valid.placed w waits a found)
    rw [Front.waiting,counted,if_pos (by simp [mine,found])] at now
    have some_ : f.gauge p.slot a ≠ 0 := fun zero => by
      rw [zero] at now
      exact Nat.succ_ne_zero _ now.symm
    change (if f.gauge p.slot a ≠ 0 then f.gauge p.slot a - 1 else _).toNat = _
    rw [if_pos some_,UInt64.toNat_sub_of_le,now]
    · rfl
    · rw [UInt64.le_iff_toNat_le,now]
      exact Nat.le_add_left 1 _

end fronts

namespace FrontOutput

def arrives (request : Nat) : FrontOutput → Bool
  | .arrived n => n == request
  | _ => false

def ends (request : Nat) : FrontOutput → Bool
  | .replied n _ | .closed n | .lost n => n == request
  | _ => false

def admits (request : Nat) : FrontOutput → Bool
  | .admitted n _ => n == request
  | _ => false

def succeeds (request : Nat) : FrontOutput → Bool
  | .replied n d => n == request && (d == .accepted || d == .invalidated)
  | _ => false

end FrontOutput

def Front.pending (f : Front) (request : Nat) : Nat := f.waiters.countP fun w => w.request == request

structure Balanced (f : Front) (out : Front × List FrontOutput) : Prop where
  valid : out.1.Valid
  grows : out.1.waiters.length ≤ f.waiters.length + 1
  ended : ∀ n, out.2.countP (FrontOutput.arrives n) + f.pending n = out.2.countP (FrontOutput.ends n) + out.1.pending n
  admitted : ∀ n, out.2.countP (FrontOutput.admits n) = out.2.countP (FrontOutput.succeeds n)

section accounts
variable {config : Config} {f : Front} {p : Process}

theorem replySucceeds (conf : DispatchConf) (rc : Rc) :
    (enqueueReply conf rc == .accepted || enqueueReply conf rc == .invalidated) = decide (rc = .ok) := by
  cases rc <;> cases named : conf.ns.isSome <;> simp [enqueueReply,named]

theorem admissionSpec (valid : f.Valid) (running : f.running p.pid = some p) {request : Nat} {purge : Purge} {o : Outcome} :
    let tried := admission config p request purge o f
    tried.2.1.Valid ∧ tried.2.1.waiters = f.waiters ∧ tried.2.1.system.procs = f.system.procs ∧
    ∀ n, tried.2.2.countP (FrontOutput.admits n) = (if request == n then (if tried.1 = .ok then 1 else 0) else 0) ∧
      tried.2.2.countP (FrontOutput.arrives n) = 0 ∧ tried.2.2.countP (FrontOutput.ends n) = 0 ∧
      tried.2.2.countP (FrontOutput.succeeds n) = 0 := by
  intro tried
  obtain ⟨found,member,_,alive⟩ := runningMember running
  have step : f.system.step config (.enqueue p.pid purge o) = enqueueStep config p purge o f.system := by
    simp only [System.step,WorkerEvent.pid,found,alive,processStep,Bool.false_eq_true,if_false]
  refine ⟨workerFront valid fun _ same => WorkerEvent.noConfusion same,rfl,?_,fun n => ?_⟩
  · change (f.system.step config (.enqueue p.pid purge o)).1.procs = f.system.procs
    rw [step]
    rfl
  · have said : tried.2.2 = (enqueueStep config p purge o f.system).2.map (.admitted request) := congrArg _ (congrArg _ step)
    have outcome : (tried.1 = .ok ∧ ∃ identity, (enqueueStep config p purge o f.system).2 = [.accepted identity]) ∨
        (tried.1 ≠ .ok ∧ (enqueueStep config p purge o f.system).2 = []) := by
      by_cases ok : tried.1 = .ok
      · obtain ⟨_,_,a,_,path,_⟩ := enqueueAccepted valid.system.queue.toCatalog ok
        exact .inl ⟨ok,_,(if_pos ok).trans (by rw [path]; rfl)⟩
      · exact .inr ⟨ok,if_neg ok⟩
    rw [said]
    rcases outcome with ⟨ok,identity,one⟩ | ⟨refused,none_⟩
    · rw [one,if_pos ok]
      simp [FrontOutput.admits,FrontOutput.arrives,FrontOutput.ends,FrontOutput.succeeds,List.countP_singleton]
    · rw [none_,if_neg refused]
      simp

theorem deferBalanced (valid : f.Valid) (running : f.running p.pid = some p) {w : Waiter} (mine : w.pid = p.pid)
    (fresh : ∀ r ∈ f.waiters, r.request ≠ w.request)
    (answers : DeferAnswers) (below : f.waiters.length + 1 < 2^64) :
    let out := deferRequest config p w answers f
    out.1.Valid ∧ out.1.waiters.length ≤ f.waiters.length + 1 ∧ ∀ n,
      out.2.countP (FrontOutput.ends n) + out.1.pending n = (if w.request == n then 1 else 0) + f.pending n ∧
      out.2.countP (FrontOutput.arrives n) = 0 ∧ out.2.countP (FrontOutput.admits n) = 0 ∧
      out.2.countP (FrontOutput.succeeds n) = 0 := by
  obtain ⟨_,member,_,_⟩ := runningMember running
  have failed : let out : Front × List FrontOutput := (f,[.replied w.request .internalError])
      out.1.Valid ∧ out.1.waiters.length ≤ f.waiters.length + 1 ∧ ∀ n,
        out.2.countP (FrontOutput.ends n) + out.1.pending n = (if w.request == n then 1 else 0) + f.pending n ∧
        out.2.countP (FrontOutput.arrives n) = 0 ∧ out.2.countP (FrontOutput.admits n) = 0 ∧
        out.2.countP (FrontOutput.succeeds n) = 0 :=
    ⟨valid,Nat.le_succ _,fun n => ⟨by simp [FrontOutput.ends,List.countP_singleton],rfl,rfl,
      by simp [FrontOutput.succeeds]⟩⟩
  unfold deferRequest
  split
  · exact failed
  · split
    · exact failed
    · have found : ∀ a, f.system.queue.findPath config.platform w.purge.cachePath = some a → a ∈ f.system.queue.paths :=
        fun a here => List.mem_of_find?_eq_some here
      dsimp only
      generalize f.system.queue.findPath config.platform w.purge.cachePath = path at found ⊢
      have joined := joinFront valid member (w := {w with path := path}) mine fresh found below
      refine ⟨?_,by simp [Front.modifyQueue],fun n => ⟨?_,rfl,rfl,rfl⟩⟩
      · cases path with
        | none => exact joined
        | some a => exact overflowFront joined p.slot a
      · simp only [Front.pending,Front.modifyQueue,List.countP_append,List.countP_singleton,List.countP_nil]
        omega

theorem dispatchQueued {conf : DispatchConf} {key : Bytes} (fits : selectorTooLong conf key = false) (plain : conf.refresh = false)
    (queued : conf.queues key = true) (rc : Rc) : dispatch conf key rc = enqueueReply conf rc := by
  simp only [dispatch,fits,plain,queued,Bool.false_eq_true,if_false,if_true]

theorem arriveBalanced (valid : f.Valid) (running : f.running p.pid = some p) {w : Waiter} (mine : w.pid = p.pid)
    (admits : f.admits w.request w.conf w.purge = true) (o : Outcome) (answers : DeferAnswers)
    (below : f.waiters.length + 1 < 2^64) : Balanced f (arriveStep config p w o answers f) := by
  simp only [Front.admits,Bool.and_eq_true,Bool.not_eq_true',Option.isNone_iff_eq_none] at admits
  obtain ⟨⟨⟨⟨⟨⟨absent,_⟩,_⟩,_⟩,fits⟩,plain⟩,queued⟩ := admits
  have fresh : ∀ r ∈ f.waiters, r.request ≠ w.request := fun r member same => by
    simpa [same] using List.find?_eq_none.mp absent r member
  obtain ⟨valid',waiters,procs,counts⟩ := @admissionSpec config f p valid running w.request w.purge o
  unfold arriveStep
  dsimp only
  generalize admission config p w.request w.purge o f = tried at valid' waiters procs counts ⊢
  have pending (n : Nat) : tried.2.1.pending n = f.pending n := congrArg _ waiters
  have running' : tried.2.1.running p.pid = some p := by
    simpa only [Front.running,System.find,procs] using running
  rw [dispatchQueued fits plain queued]
  have replied : Balanced f
      (tried.2.1,.arrived w.request :: tried.2.2 ++ [.replied w.request (enqueueReply w.conf tried.1)]) := by
    refine ⟨valid',by rw [waiters]; exact Nat.le_succ _,fun n => ?_,fun n => ?_⟩
    · obtain ⟨admitted,arrives,ends,succeeds⟩ := counts n
      simp only [List.countP_append,List.countP_cons,List.countP_nil,arrives,ends,pending]
      simp [FrontOutput.arrives,FrontOutput.ends]
    · obtain ⟨admitted,arrives,ends,succeeds⟩ := counts n
      simp only [List.countP_append,List.countP_cons,List.countP_nil,admitted,succeeds]
      simp [FrontOutput.admits,FrontOutput.succeeds,replySucceeds]
      split <;> simp_all
  by_cases put : tried.1 = .again
  · obtain ⟨joined,grows,said⟩ := deferBalanced valid' running' mine (waiters ▸ fresh) answers (by rwa [waiters])
    rw [put]
    refine ⟨joined,waiters ▸ grows,fun n => ?_,fun n => ?_⟩
    · obtain ⟨_,arrives,ends,_⟩ := counts n
      obtain ⟨balance,none_,_,_⟩ := said n
      simp only [enqueueReply,List.countP_append,List.countP_cons,arrives,ends,none_,pending] at balance ⊢
      rcases Bool.eq_false_or_eq_true (w.request == n) with same | other
      · simp [FrontOutput.arrives,FrontOutput.ends,same] at balance ⊢
        omega
      · simp [FrontOutput.arrives,FrontOutput.ends,other] at balance ⊢
        omega
    · obtain ⟨admitted,_,_,succeeds⟩ := counts n
      obtain ⟨_,_,unadmitted,unsaid⟩ := said n
      simp only [enqueueReply,List.countP_append,List.countP_cons,admitted,succeeds,unadmitted,unsaid,put]
      simp [FrontOutput.admits,FrontOutput.succeeds]
  · have final : enqueueReply w.conf tried.1 ≠ .deferred := by
      cases rc : tried.1 <;> cases named : w.conf.ns.isSome <;> simp_all [enqueueReply]
    split
    · rename_i deferred
      exact absurd deferred final
    · exact replied

theorem leaveBalanced (valid : f.Valid) (member : p ∈ f.system.procs) {w : Waiter} (waits : w ∈ f.waiters)
    (mine : w.pid = p.pid) : let out := (f.drop w.request).modifyQueue (Queue.statWait (some p.slot) w.path false)
    out.Valid ∧ out.waiters.length ≤ f.waiters.length + 1 ∧
      ∀ n, f.pending n = out.pending n + if w.request == n then 1 else 0 :=
  ⟨leaveFront valid member waits mine,Nat.le_succ_of_le (List.length_filter_le _ _),
    fun n => dropCount valid.numbered waits fun r => r.request == n⟩

theorem timerBalanced (valid : f.Valid) (running : f.running p.pid = some p) {w : Waiter} (waits : w ∈ f.waiters)
    (mine : w.pid = p.pid) (now : UInt64) (o : Outcome) : Balanced f (timerStep config p w now o f) := by
  obtain ⟨valid',waiters,procs,counts⟩ :=
    @admissionSpec config f p valid running w.request {w.purge with now := now} o
  unfold timerStep
  dsimp only
  generalize admission config p w.request {w.purge with now := now} o f = tried at valid' waiters procs counts ⊢
  have pending (n : Nat) : tried.2.1.pending n = f.pending n := congrArg _ waiters
  split
  · rename_i again
    refine ⟨valid',by rw [waiters]; exact Nat.le_succ _,fun n => ?_,fun n => ?_⟩
    · obtain ⟨_,arrives,ends,_⟩ := counts n
      rw [arrives,ends,pending]
    · obtain ⟨admitted,_,_,succeeds⟩ := counts n
      simp [admitted,succeeds,again]
  · obtain ⟨_,member,_,_⟩ := runningMember running
    obtain ⟨left,grows,leaves⟩ := leaveBalanced valid' (procs ▸ member) (waiters ▸ waits) mine
    refine ⟨left,waiters ▸ grows,fun n => ?_,fun n => ?_⟩
    · obtain ⟨_,arrives,ends,_⟩ := counts n
      rw [← pending n,leaves n]
      simp [List.countP_append,List.countP_singleton,arrives,ends,FrontOutput.arrives,FrontOutput.ends,Nat.add_comm]
    · obtain ⟨admitted,_,_,succeeds⟩ := counts n
      simp only [List.countP_append,List.countP_singleton,admitted,succeeds,FrontOutput.admits,FrontOutput.succeeds,
        replySucceeds]
      split <;> simp_all

theorem goneBalanced (valid : f.Valid) (pid : Pid) : Balanced f (f.step config (.worker (.gone pid))) := by
  refine ⟨goneFront valid pid,Nat.le_succ_of_le (List.length_filter_le _ _),fun n => ?_,fun n => ?_⟩
  · have split := List.countP_eq_countP_filter_add f.waiters (fun w => w.request == n) fun w => w.pid == pid
    have silent : (f.waiters.filter fun w => w.pid == pid).countP
        (FrontOutput.arrives n ∘ fun w => FrontOutput.lost w.request) = 0 := List.countP_eq_zero.mpr fun _ _ => by
      simp [FrontOutput.arrives]
    simp only [Front.step,List.countP_map,silent,Nat.zero_add]
    exact split
  · simp only [Front.step,List.countP_map]
    rw [List.countP_eq_zero.mpr fun _ _ => by simp [FrontOutput.admits],
      List.countP_eq_zero.mpr fun _ _ => by simp [FrontOutput.succeeds]]

theorem workerBalanced (valid : f.Valid) {e : WorkerEvent} (stays : ∀ pid, e ≠ .gone pid) :
    Balanced f ({f with system := (f.system.step config e).1},(f.system.step config e).2.map .queue) := by
  have silent (P : FrontOutput → Bool) (quiet : ∀ o, P (.queue o) = false) :
      ((f.system.step config e).2.map FrontOutput.queue).countP P = 0 := by
    rw [List.countP_map]
    exact List.countP_eq_zero.mpr fun o _ => by simp [quiet]
  refine ⟨workerFront valid stays,Nat.le_succ _,fun n => ?_,fun n => ?_⟩
  · rw [silent (FrontOutput.arrives n) fun _ => rfl,silent (FrontOutput.ends n) fun _ => rfl]
    rfl
  · rw [silent (FrontOutput.admits n) fun _ => rfl,silent (FrontOutput.succeeds n) fun _ => rfl]

theorem idleBalanced (valid : f.Valid) : Balanced f (f,[]) :=
  ⟨valid,Nat.le_succ _,fun _ => rfl,fun _ => rfl⟩

theorem frontBalanced (valid : f.Valid) (below : f.waiters.length + 1 < 2^64) (e : FrontEvent) :
    Balanced f (f.step config e) := by
  cases e with
  | worker e =>
    cases e with
    | gone pid => exact goneBalanced valid pid
    | _ => exact workerBalanced valid fun _ same => WorkerEvent.noConfusion same
  | arrive pid request conf purge o answers =>
    simp only [Front.step]
    split
    · exact idleBalanced valid
    · rename_i p running
      obtain ⟨_,_,mine,_⟩ := runningMember running
      split
      · rename_i admits
        exact arriveBalanced valid (mine ▸ running) (w := ⟨pid,request,purge,conf,none⟩) mine.symm admits o answers below
      · exact idleBalanced valid
  | timer request now o =>
    simp only [Front.step]
    split
    · exact idleBalanced valid
    · rename_i w found
      split
      · exact idleBalanced valid
      · rename_i p running
        obtain ⟨_,_,mine,_⟩ := runningMember running
        exact timerBalanced valid (mine ▸ running) (waiterMember found).1 mine.symm now o
  | close request =>
    simp only [Front.step]
    split
    · exact idleBalanced valid
    · rename_i w found
      obtain ⟨waits,named⟩ := waiterMember found
      split
      · exact idleBalanced valid
      · rename_i p running
        obtain ⟨_,member,mine,_⟩ := runningMember running
        obtain ⟨left,grows,leaves⟩ := leaveBalanced valid member waits mine.symm
        rw [named] at left grows leaves
        refine ⟨left,grows,fun n => ?_,fun _ => rfl⟩
        rw [leaves n]
        simp [List.countP_singleton,FrontOutput.arrives,FrontOutput.ends,Nat.add_comm]

theorem frontInitValid (maxSize : Nat) (paths : List (Nat × Bytes)) (epochs : Nat → Epoch) :
    (frontInit maxSize paths epochs).Valid :=
  ⟨initSystemValid maxSize paths epochs,fun _ member => absurd member List.not_mem_nil,List.nodup_nil,
    fun _ member => absurd member List.not_mem_nil,fun _ member => absurd member List.not_mem_nil,
    fun _ member => absurd member List.not_mem_nil⟩

theorem frontRun (valid : f.Valid) (events : List FrontEvent) (few : f.waiters.length + events.length < 2^64) :
    let f' := (frontMachine config).after f events
    let out := (frontMachine config).outputs f events
    f'.Valid ∧ f'.waiters.length ≤ f.waiters.length + events.length ∧
    ∀ n, out.countP (FrontOutput.arrives n) + f.pending n = out.countP (FrontOutput.ends n) + f'.pending n ∧
      out.countP (FrontOutput.admits n) = out.countP (FrontOutput.succeeds n) := by
  induction events generalizing f with
  | nil => exact ⟨valid,Nat.le_refl _,fun n => ⟨rfl,rfl⟩⟩
  | cons e rest ih =>
    simp only [List.length_cons] at few
    have step := @frontBalanced config f valid (by omega) e
    have grows := step.grows
    obtain ⟨valid',length,later⟩ := ih step.valid (by omega)
    refine ⟨valid',length.trans (by simp only [List.length_cons]; omega),fun n => ?_⟩
    obtain ⟨ended,admitted⟩ := later n
    have now := step.ended n
    simp only [Machine.outputsCons,Machine.afterCons,List.countP_append,frontStep] at ended admitted ⊢
    exact ⟨by omega,by rw [step.admitted n,admitted]⟩

end accounts

section status
variable {config : Config} {f : Front} {a : Nat}

def Front.waitingAt (f : Front) (a : Nat) : Nat := f.waiters.countP fun w => w.path == some a

theorem waitersSplit {pids : List Pid} (distinct : pids.Nodup) {waiters : List Waiter} (placed : ∀ w ∈ waiters, w.pid ∈ pids)
    (P : Waiter → Bool) : (pids.map fun pid => waiters.countP fun w => w.pid == pid && P w).sum = waiters.countP P := by
  induction waiters with
  | nil => simp
  | cons w rest ih =>
    have seats : ∀ pids : List Pid, (pids.map fun pid => if (w.pid == pid) = true then 1 else 0).sum = pids.count w.pid := by
      intro pids
      induction pids with
      | nil => rfl
      | cons pid rest ih => rw [List.map_cons,List.sum_cons,ih,List.count_cons,Nat.add_comm,BEq.comm]
    have once : (pids.map fun pid => if (w.pid == pid && P w) = true then 1 else 0).sum = if P w = true then 1 else 0 := by
      cases chosen : P w with
      | false => simp
      | true =>
        simp only [Bool.and_true,if_true]
        rw [seats,List.count_eq_one_of_mem distinct (placed w List.mem_cons_self)]
    simp only [List.countP_cons,List.sum_map_add,once]
    rw [ih fun w member => placed w (List.mem_cons_of_mem _ member)]

theorem gaugeTotal (valid : f.Valid) (here : a ∈ f.system.queue.paths) :
    f.system.queue.total a .waiting = f.waitingAt a +
      ∑ slot ∈ Finset.range maxProcesses with slot ∉ f.system.procs.map Process.slot, (f.gauge slot a).toNat := by
  have inside : (Finset.range maxProcesses).filter (· ∈ f.system.procs.map Process.slot) =
      (f.system.procs.map Process.slot).toFinset := by
    ext slot
    simp only [Finset.mem_filter,Finset.mem_range,List.mem_toFinset,and_iff_right_iff_imp]
    intro listed
    obtain ⟨p,member,rfl⟩ := List.mem_map.mp listed
    exact (valid.slots p member).1
  have taken : ∑ slot ∈ (f.system.procs.map Process.slot).toFinset, (f.gauge slot a).toNat = f.waitingAt a := by
    rw [List.sum_toFinset _ valid.system.slots,List.map_map]
    have rows : f.system.procs.map ((fun slot => (f.gauge slot a).toNat) ∘ Process.slot) =
        (f.system.procs.map Process.pid).map fun pid => f.waiting pid a := by
      rw [List.map_map]
      exact List.map_congr_left fun p member => valid.gauges p member a here
    rw [rows]
    refine waitersSplit valid.system.pids (fun w member => ?_) fun w => w.path == some a
    obtain ⟨p,there,mine⟩ := valid.seated w member
    exact mine ▸ List.mem_map_of_mem there
  rw [← taken,← inside]
  exact (Finset.sum_filter_add_sum_filter_not _ _ _).symm

end status

/- Every request that reaches the queue is answered once, or its client or its process goes
away, or it still waits; the queue takes it when it is told so and at no other time. A status
never shows fewer requests waiting than there are, and shows exactly these unless a worker
has left some behind in a slot that is free now. -/
theorem waitersAccounted (config : Config) (maxSize : Nat) (paths : List (Nat × Bytes)) (epochs : Nat → Epoch)
    (events : List FrontEvent) (few : events.length < 2^64) :
    let f := (frontMachine config).after (frontInit maxSize paths epochs) events
    let past := (frontMachine config).outputs (frontInit maxSize paths epochs) events
    (∀ n, past.countP (FrontOutput.arrives n) = past.countP (FrontOutput.ends n) + f.pending n ∧ f.pending n ≤ 1 ∧
      past.countP (FrontOutput.admits n) = past.countP (FrontOutput.succeeds n)) ∧
    (∀ p ∈ f.system.procs, ∀ a ∈ f.system.queue.paths, (f.gauge p.slot a).toNat = f.waiting p.pid a) ∧
    ∀ a ∈ f.system.queue.paths, ∀ now,
      let shown := (queueStatusSnapshot now (some a) f.system.queue).cache.waiting.toNat
      f.waitingAt a ≤ shown ∧
      ((∀ slot < maxProcesses, (∀ p ∈ f.system.procs, p.slot ≠ slot) → f.gauge slot a = 0) → shown = f.waitingAt a) := by
  intro f past
  obtain ⟨valid,length,accounts⟩ := frontRun (@frontInitValid maxSize paths epochs) events (by simpa [frontInit] using few)
  refine ⟨fun n => ?_,valid.gauges,fun a here now => ?_⟩
  · obtain ⟨ended,admitted⟩ := accounts n
    refine ⟨ended,?_,admitted⟩
    have once := List.nodup_iff_count_le_one.mp valid.numbered n
    rwa [List.count_eq_countP,List.countP_map] at once
  · have total := gaugeTotal valid here
    have bound : f.waitingAt a ≤ counterMax := by
      have all : f.waitingAt a ≤ f.waiters.length := List.countP_le_length
      have start : (frontInit maxSize paths epochs).waiters.length = 0 := rfl
      rw [start,Nat.zero_add] at length
      have cap : counterMax + 1 = 2^64 := rfl
      change f.waiters.length ≤ events.length at length
      omega
    intro shown
    have sum : shown = min (f.system.queue.total a .waiting) counterMax := by
      simp only [shown,queueStatusSnapshot]
      exact statSumTotal .waiting
    refine ⟨by rw [sum,total]; exact le_min (Nat.le_add_right _ _) bound,fun vacant => ?_⟩
    rw [sum,total,Finset.sum_eq_zero,Nat.add_zero,Nat.min_eq_left bound]
    intro slot inside
    simp only [Finset.mem_filter,Finset.mem_range,List.mem_map,not_exists,not_and] at inside
    rw [vacant slot inside.1 inside.2]
    rfl

def fullRun : List FrontEvent :=
  let conf : DispatchConf := ⟨none,false,false,false,true⟩
  let purge (key : Bytes) : Purge := ⟨true,[47,99],none,key,false,none,[],[],0⟩
  [.worker (.start 7 0 false []),
    .arrive 7 1 conf (purge [97,star]) ⟨true,true,some 1,[]⟩ ⟨true,true⟩,
    .arrive 7 2 conf (purge [98,star]) ⟨true,true,some 2,[]⟩ ⟨true,true⟩,
    .timer 2 10 ⟨true,true,some 2,[]⟩]

def fullConfig : Config := ⟨posix,fun _ => siteName⟩

def fullInit : Front := frontInit 1 [(1,[47,99])] fun _ => siteEpoch

theorem waitersAccountedFull :
    (frontMachine fullConfig).outputs fullInit (fullRun ++ [.close 2]) =
      [.arrived 1,.admitted 1 (.accepted ⟨1,[76,97,star]⟩),.replied 1 .accepted,.arrived 2,.closed 2] ∧
    1 ≤ (queueStatusSnapshot 0 (some 1)
      ((frontMachine fullConfig).after fullInit fullRun).system.queue).cache.waiting.toNat := by
  have waits : ((frontMachine fullConfig).after fullInit fullRun).waitingAt 1 = 1 := by decide +kernel
  have here : 1 ∈ ((frontMachine fullConfig).after fullInit fullRun).system.queue.paths := by decide +kernel
  have accounted := waitersAccounted fullConfig 1 [(1,[47,99])] (fun _ => siteEpoch) fullRun (by decide)
  refine ⟨by decide +kernel,?_⟩
  unfold fullInit at waits here ⊢
  generalize (frontMachine fullConfig).after (frontInit 1 [(1,[47,99])] fun _ => siteEpoch) fullRun = f at waits here accounted ⊢
  obtain ⟨_,_,shown⟩ := accounted
  exact waits.ge.trans (shown 1 here 0).1

end CachePurge
