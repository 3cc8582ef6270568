import CachePurge.General.Machine
import CachePurge.Worker

/-! Any number of worker processes over one queue and its namespaces. An event
is one section under the zone lock, or one piece of work of a single process
outside it; a crash is the end of a process between two sections. Processes that
live at the same time differ in pid and slot, and a probe of a live pid says so;
a pid or a slot may be used again once its process is gone. Each process has the
namespaces of its own configuration: around a reload old and new workers share the queue. -/
namespace CachePurge
open General

structure Process where
  pid : Pid
  slot : Slot
  leaving : Bool
  exited : Bool
  work : Work
  namespaces : List Nat
  deriving DecidableEq, Repr

structure System where
  queue : Queue
  zones : Nat → Zone
  procs : List Process

inductive WorkerEvent where
  | start (pid : Pid) (slot : Slot) (threaded : Bool) (namespaces : List Nat)
  | leave (pid : Pid)
  | enqueue (pid : Pid) (p : Purge) (o : Outcome)
  | recover (pid : Pid) (now : UInt64) (locked : Bool) (claims : Pid → Bool)
  | take (pid : Pid) (now : UInt64) (locked poolFound : Bool)
  | post (pid : Pid) (posted : Bool)
  | thread (pid : Pid) (counters : Counters)
  | notify (pid : Pid)
  | slice (pid : Pid) (again : Bool) (counters : Counters)
  | finish (pid : Pid) (now : UInt64) (locked : Bool)
  | exit (pid : Pid) (now closed : UInt64)
  | gone (pid : Pid)

structure Identity where
  path : Nat
  key : Bytes
  deriving DecidableEq, Repr

inductive QueueOutput where
  | accepted (identity : Identity)
  | started (owner : Owner) (t : TaskId) (identity : Identity)
  | walked (owner : Owner) (t : TaskId) (identity : Identity)
  | finished (owner : Owner) (t : TaskId)
  | recovered (owner : Owner) (t : TaskId)
  deriving DecidableEq, Repr

def Item.identity (item : Item) : Identity := ⟨item.path,item.key⟩

namespace System

def find (s : System) (pid : Pid) : Option Process := s.procs.find? fun p => p.pid == pid

def revise (s : System) (pid : Pid) (f : Process → Process) : System :=
  {s with procs := s.procs.map fun p => if p.pid == pid then f p else p}

def setWork (s : System) (pid : Pid) (w : Work) : System := s.revise pid fun p => {p with work := w}

def owner (s : System) (p : Process) : Owner := ⟨p.pid,p.slot,s.queue.epochs p.slot⟩

/- The liveness probe: a live pid is alive, of any other it may say anything. -/
def alive (s : System) (claims : Pid → Bool) (pid : Pid) : Bool :=
  s.procs.any (fun p => p.pid == pid) || claims pid

def identity (s : System) (t : TaskId) : Option Identity := (s.queue.items t).map Item.identity

def walkEnd (s : System) (p : Process) : List QueueOutput :=
  match p.work.item with
  | none => []
  | some t => ((s.identity t).map fun identity => .walked (s.owner p) t identity).toList

end System

structure Config where
  platform : Platform
  names : Nat → Name

section machine
variable (config : Config)

def startProcess (pid : Pid) (slot : Slot) (threaded : Bool) (namespaces : List Nat) (s : System) : System :=
  if s.procs.any (fun p => p.pid == pid || p.slot == slot) || pid == 0 then s
  else match initWorker none pid slot s.queue with
    | none => s
    | some q => {s with queue := q, procs := s.procs ++ [⟨pid,slot,false,false,.idle threaded,namespaces⟩]}

def enqueueStep (p : Process) (purge : Purge) (o : Outcome) (s : System) : System × List QueueOutput :=
  let outcome := enqueue config.platform config.names (some p.slot) p.leaving purge o s.queue s.zones
  ({s with queue := outcome.2.1, zones := outcome.2.2},
    if outcome.1 = .ok then
      ((s.queue.findPath config.platform purge.cachePath).map fun a =>
        .accepted ⟨a,purge.indexKey config.names⟩).toList
    else [])

def recoverStep (p : Process) (now : UInt64) (locked : Bool) (claims : Pid → Bool) (s : System) :
    System × List QueueOutput :=
  let outcome := recover (some p.slot) (s.alive claims) now locked s.queue
  ({s with queue := outcome.1},
    outcome.2.map fun ended => .recovered ended.1 ended.2)

def takeStep (p : Process) (now : UInt64) (locked poolFound : Bool) (s : System) :
    System × List QueueOutput :=
  if p.work.item.isSome then (s,[])
  else
    let outcome := takeTask config.names p.namespaces p.pid p.slot p.leaving now locked poolFound
      s.queue p.work
    ({s with queue := outcome.2.1}.setWork p.pid outcome.2.2,
      match outcome.2.2.item with
      | none => []
      | some t => ((s.identity t).map fun identity => .started (s.owner p) t identity).toList)

def finishStep (p : Process) (now : UInt64) (locked : Bool) (s : System) : System × List QueueOutput :=
  match p.work.item with
  | none => (s,[])
  | some t =>
    if p.work.complete && !p.work.active then
      let outcome := finishTask p.slot false now locked s.queue p.work
      ({s with queue := outcome.2.1}.setWork p.pid outcome.2.2,
        if outcome.2.2.item.isNone then [.finished (s.owner p) t] else [])
    else (s,[])

def exitStep (p : Process) (now closed : UInt64) (s : System) : System × List QueueOutput :=
  let outcome := exitWorker p.slot now closed s.queue p.work
  ({s with queue := outcome.1}.revise p.pid fun p => {p with work := outcome.2, exited := true},
    match p.work.item with
    | none => []
    | some t => if outcome.2.item.isNone then [.finished (s.owner p) t] else [])

def processStep (p : Process) (s : System) : WorkerEvent → System × List QueueOutput
  | .leave pid => (s.revise pid fun p => {p with leaving := true},[])
  | .enqueue _ purge o => enqueueStep config p purge o s
  | .recover _ now locked claims => recoverStep p now locked claims s
  | .take _ now locked poolFound => takeStep config p now locked poolFound s
  | .post pid posted =>
    if p.work.item.isSome && p.work.pool && !p.work.started && !p.work.active then
      (s.setWork pid (postTask posted p.work).2,[])
    else (s,[])
  | .notify pid =>
    if p.work.active && p.work.finished then (s.setWork pid {p.work with active := false},[]) else (s,[])
  | .slice pid again counters =>
    if p.work.item.isSome && (!p.work.pool || p.work.started) && !p.work.complete && !p.work.active then
      (s.setWork pid (sliceTask again counters p.work),if again then [] else s.walkEnd p)
    else (s,[])
  | .finish _ now locked => finishStep p now locked s
  | .exit _ now closed => exitStep p now closed s
  | _ => (s,[])

def WorkerEvent.pid : WorkerEvent → Pid
  | .start pid .. | .leave pid | .enqueue pid .. | .recover pid .. | .take pid .. | .post pid ..
  | .thread pid .. | .notify pid | .slice pid .. | .finish pid .. | .exit pid .. | .gone pid => pid

def System.step (s : System) (e : WorkerEvent) : System × List QueueOutput :=
  match e with
  | .start pid slot threaded namespaces => (startProcess pid slot threaded namespaces s,[])
  | .gone pid => ({s with procs := s.procs.filter fun p => p.pid != pid},[])
  | .thread pid counters => match s.find pid with
    | none => (s,[])
    | some p =>
      -- The pool thread runs on while its process is in its exit handler.
      if p.work.active && !p.work.finished then (s.setWork pid (threadRun counters p.work),s.walkEnd p)
      else (s,[])
  | e => match s.find e.pid with
    | none => (s,[])
    | some p => if p.exited then (s,[]) else processStep config p s e

def systemMachine : Machine System WorkerEvent QueueOutput := ⟨System.step config⟩

def systemInit (maxSize : Nat) (paths : List (Nat × Bytes)) (epochs : Nat → Epoch) : System :=
  ⟨queueInit maxSize paths,fun ns => generationInit (epochs ns),[]⟩

end machine
end CachePurge
