import CachePurge.PassCharges
import CachePurge.QueueStatus
import CachePurge.WalkSlices

/-! The event loop of one worker: its timer, its pool thread and the calls of
ngx_http_cache_purge_background_handler, each of them a loop over
ngx_http_cache_purge_process_queue. The other processes run between any two of its
sections; locks, clocks, the pool and the walk are arguments. -/
namespace CachePurge
open General

structure BackgroundConf where
  batchSize : Nat
  throttle : Nat
  deriving DecidableEq, Repr

structure Background where
  system : System
  -- The event of the work, and the one of its thread task.
  timer : Bool
  taskTimer : Bool
  batch : Nat
  recoverAt : UInt64

/- The answers to one call of ngx_http_cache_purge_process_queue, and the clock after it. -/
structure Iteration where
  now : UInt64
  locked : Bool
  poolFound : Bool
  between : List WorkerEvent
  posted : Bool
  again : Bool
  counters : Counters
  later : List WorkerEvent
  ended : UInt64
  released : Bool
  clock : UInt64

structure Wakeup where
  now : UInt64
  claims : Pid → Bool
  locked : Bool
  between : List WorkerEvent
  iterations : Nat → Iteration

inductive Exit where
  | posted | empty | busy | full | clock
  deriving DecidableEq, Repr

inductive BackgroundOutput where
  | started (t : TaskId)
  | posted (t : TaskId)
  -- The event loop has moved the cursor; inFlight when a posted task still had it.
  | walked (inFlight : Bool) (counters : Counters)
  | ran (counters : Counters)
  | closed (errors : UInt64)
  | ended (t : TaskId) (path : Nat) (counters : Counters)
  | paused (exit : Exit) (delay : Nat)
  deriving DecidableEq, Repr

inductive BackgroundEvent where
  | other (e : WorkerEvent)
  | leave
  | enqueue (p : Purge) (o : Outcome)
  | thread (counters : Counters)
  | timer (a : Wakeup)
  | timeout
  | notify (a : Wakeup)
  | exit (now closed : UInt64)

/- A part of ngx_http_cache_purge_process_queue: with a code when it returns there. -/
structure Part where
  rc : Option Rc
  state : Background
  out : List BackgroundOutput

def Part.andThen (part : Part) (next : Background → Part) : Part :=
  match part.rc with
  | some _ => part
  | none => ⟨(next part.state).rc,(next part.state).state,part.out ++ (next part.state).out⟩

section sections
variable (config : Config) (pid : Pid)

def Background.others (events : List WorkerEvent) (b : Background) : Background :=
  {b with system := (events.filter fun e => e.pid != pid).foldl (fun s e => (s.step config e).1) b.system}

def Background.own (part : Process → Background → Part) (b : Background) : Part :=
  match b.system.find pid with
  | none => ⟨some .done,b,[]⟩
  | some p => part p b

def takePart (a : Iteration) (p : Process) (b : Background) : Part :=
  if p.work.item.isSome then ⟨none,b,[]⟩
  else
    let outcome := takeTask config.names p.namespaces p.pid p.slot p.leaving a.now a.locked a.poolFound
      b.system.queue p.work
    ⟨outcome.1,{b with system := {b.system with queue := outcome.2.1}.setWork p.pid outcome.2.2},
      outcome.2.2.item.toList.map .started⟩

def walkPart (a : Iteration) (p : Process) (b : Background) : Part :=
  if p.work.pool && !p.work.started then
    let outcome := postTask a.posted p.work
    ⟨some outcome.1,{b with
      system := b.system.setWork p.pid outcome.2
      taskTimer := b.taskTimer || a.posted},if a.posted then p.work.item.toList.map .posted else []⟩
  else if p.work.complete then ⟨none,b,[]⟩
  else
    ⟨if a.again then some .busy else none,
      {b with system := b.system.setWork p.pid (sliceTask a.again a.counters p.work)},
      [.walked (p.work.active && !p.work.finished) a.counters]⟩

def passEnd (q : Queue) (w : Work) : List BackgroundOutput :=
  match w.item with
  | none => []
  | some t => ((q.items t).map fun item => .ended t item.path w.counters).toList

def endPart (a : Iteration) (p : Process) (b : Background) : Part :=
  let outcome := finishTask p.slot false a.ended a.released b.system.queue p.work
  ⟨some outcome.1,{b with system := {b.system with queue := outcome.2.1}.setWork p.pid outcome.2.2},
    if outcome.2.2.item.isNone then passEnd b.system.queue p.work else []⟩

def processQueue (a : Iteration) (b : Background) : Part :=
  ((b.own pid (takePart config a)).andThen fun b =>
    (b.others config pid a.between).own pid (walkPart a)).andThen fun b =>
      (b.others config pid a.later).own pid (endPart a)

variable (conf : BackgroundConf)

def drain (start : UInt64) (answers : Nat → Iteration) (i : Nat) (b : Background) :
    Exit × Background × List BackgroundOutput :=
  let part := processQueue config pid (answers i) b
  match part.rc with
  | some .done => (.posted,part.state,part.out)
  | some .ok => (.empty,{part.state with batch := 0},part.out)
  | some .busy => (.busy,part.state,part.out)
  | _ =>
    if conf.batchSize ≤ b.batch + 1 then (.full,{part.state with batch := 0},part.out)
    else
      let next := {part.state with batch := b.batch + 1}
      if walkMsec ≤ (age (answers i).clock start).toNat then (.clock,next,part.out)
      else
        let rest := drain start answers (i + 1) next
        (rest.1,rest.2.1,part.out ++ rest.2.2)
termination_by conf.batchSize - b.batch

def Exit.delay (w : Work) : Exit → Nat
  | .empty => conf.throttle * 10
  | .full => conf.throttle
  | .busy => if w.item.isNone || (w.pool && !w.started) then 10 else 1
  | _ => 1

def Background.recovered (a : Wakeup) (p : Process) (b : Background) : Background :=
  if 1000 ≤ age a.now b.recoverAt then
    {b with
      system := (recoverStep p a.now a.locked a.claims b.system).1
      recoverAt := a.now}
  else b

def backgroundHandler (a : Wakeup) (p : Process) (b : Background) : Background × List BackgroundOutput :=
  let outcome := drain config pid conf a.now a.iterations 0 ((b.recovered a p).others config pid a.between)
  let b := outcome.2.1
  match outcome.1, b.system.find pid with
  | .posted, _ => (b,outcome.2.2)
  | _, none => (b,outcome.2.2)
  | exit, some p =>
    if p.work.item.isNone && p.leaving then (b,outcome.2.2)
    else ({b with timer := true},outcome.2.2 ++ [.paused exit (exit.delay conf p.work)])

def backgroundCall (p : Process) (b : Background) : BackgroundEvent → Background × List BackgroundOutput
  | .leave => ({b with system := (b.system.step config (.leave pid)).1},[])
  | .enqueue purge o => ({b with system := (b.system.step config (.enqueue pid purge o)).1},[])
  | .timer a =>
    if b.timer then backgroundHandler config pid conf a p {b with timer := false} else (b,[])
  -- ngx_http_cache_purge_thread_done, for a timeout and for a completion
  | .timeout => if b.taskTimer then ({b with taskTimer := true},[]) else (b,[])
  | .notify a =>
    if p.work.active && p.work.finished then
      backgroundHandler config pid conf a p {b with
        system := (b.system.step config (.notify pid)).1
        taskTimer := false}
    else (b,[])
  | .exit now closed =>
    let left := (b.system.step config (.exit pid now closed)).1
    ({b with
      system := left
      timer := false},
      if (p.work.active && !p.work.finished) || p.work.item.isNone then []
      else .closed closed :: passEnd b.system.queue (p.work.closing closed))
  | _ => (b,[])

def Background.step (b : Background) (e : BackgroundEvent) : Background × List BackgroundOutput :=
  match e with
  | .other e => (b.others config pid [e],[])
  | e => match b.system.find pid with
    | none => (b,[])
    | some p => match e with
      | .thread counters =>
        if p.work.active && !p.work.finished then
          ({b with system := (b.system.step config (.thread pid counters)).1},[.ran counters])
        else (b,[])
      | e => if p.exited then (b,[]) else backgroundCall config pid conf p b e

def backgroundMachine : Machine Background BackgroundEvent BackgroundOutput := ⟨Background.step config pid conf⟩

def backgroundInit (s : System) : Background := ⟨s,true,false,0,0⟩

end sections
end CachePurge
