import CachePurge.General.Traces
import CachePurge.QueueOperations
import CachePurge.Workers
import Mathlib.Data.List.Nodup

/-! A step of the workers as a list of turns, each of them one change of the
queue together with what it does to the acting process. The invariant links a
process to the task it holds: the task is active, and its recorded owner is the
process under its present registration. -/
namespace CachePurge
open General

structure Holding (q : Queue) (p : Process) (t : TaskId) : Prop where
  held : t ∈ q.active
  registered : q.owners p.slot = p.pid
  holder : ∃ item, q.items t = some item ∧ item.holder = ⟨p.pid,p.slot,q.epochs p.slot⟩

structure System.Valid (s : System) : Prop where
  queue : s.queue.Valid
  pids : (s.procs.map Process.pid).Nodup
  slots : (s.procs.map Process.slot).Nodup
  registered : ∀ p ∈ s.procs, p.exited = false → s.queue.owners p.slot = p.pid
  holding : ∀ p ∈ s.procs, ∀ t, p.work.item = some t → Holding s.queue p t

structure Process.Keeps (f : Process → Process) : Prop where
  pid : ∀ p, (f p).pid = p.pid
  slot : ∀ p, (f p).slot = p.slot
  exited : ∀ p, (f p).exited = false → p.exited = false

/- The task that a worker takes in an event, if it takes one. -/
def System.picks (s : System) : WorkerEvent → Option (Process × Item)
  | .take pid now locked _ => do
    let p ← s.find pid
    if p.exited || p.leaving || !locked || p.work.item.isSome then none
    else
      let t ← (selectReady s.queue.items now (min s.queue.size walkEntries) s.queue.pending).1
      (s.queue.items t).map fun item => (p,item)
  | _ => none

section turns
variable (config : Config) (picked : Option (Process × Item))

inductive Turn (s : System) : List QueueOutput → System → Prop where
  | alone {p : Process} {f : Process → Process} (member : p ∈ s.procs) (keeps : Process.Keeps f)
      (item : (f p).work.item = p.work.item)
      (complete : (f p).work.complete = true → p.work.complete = true) : Turn s [] (s.revise p.pid f)
  | walk {p : Process} {f : Process → Process} (member : p ∈ s.procs) (keeps : Process.Keeps f)
      (item : (f p).work.item = p.work.item) : Turn s (s.walkEnd p) (s.revise p.pid f)
  | shuffle {q' : Queue} (change : Change s.queue .shuffle q') : Turn s [] {s with queue := q'}
  | accept {purge : Purge} {a : Nat} {t : TaskId} {q' : Queue} {zones' : Nat → Zone}
      (change : Change s.queue (.accept t (purge.item config.names a)) q') :
      Turn s [.accepted ⟨a,purge.indexKey config.names⟩] {s with queue := q', zones := zones'}
  | renew {purge : Purge} {a : Nat} {t : TaskId} {item : Item} {q' : Queue} {zones' : Nat → Zone}
      (here : s.queue.items t = some item)
      (path : item.path = a) (key : item.key = purge.indexKey config.names)
      (change : Change s.queue (.renew t purge) q') :
      Turn s [.accepted ⟨a,purge.indexKey config.names⟩] {s with queue := q', zones := zones'}
  | take {p : Process} {t : TaskId} {item : Item} {q' : Queue} {poolFound : Bool} {root : Bytes}
      (member : p ∈ s.procs) (here : s.queue.items t = some item)
      (waiting : t ∈ s.queue.pending) (running : p.exited = false) (this : picked = some (p,item))
      (change : Change s.queue (.start t (s.owner p)) q') :
      Turn s [.started (s.owner p) t item.identity] ({s with queue := q'}.setWork p.pid
        (p.work.begin config.names p.namespaces poolFound t item root))
  | requeue {p : Process} {t : TaskId} {item' : Item} {q' : Queue} {f : Process → Process}
      (member : p ∈ s.procs) (holds : p.work.item = some t)
      (keeps : Process.Keeps f) (item : (f p).work.item = none)
      (change : Change s.queue (.requeue t item') q') :
      Turn s [.finished (s.owner p) t] ({s with queue := q'}.revise p.pid f)
  | retire {p : Process} {t : TaskId} {item : Item} {q' : Queue} {f : Process → Process}
      (member : p ∈ s.procs) (holds : p.work.item = some t)
      (keeps : Process.Keeps f) (emptied : (f p).work.item = none) (here : s.queue.items t = some item)
      (steady : item.rerun = false) (complete : p.work.complete = true)
      (change : Change s.queue (.retire t) q') :
      Turn s [.finished (s.owner p) t] ({s with queue := q'}.revise p.pid f)
  | recovered {claims : Pid → Bool} {t : TaskId} {item item' : Item} {q' : Queue}
      (here : s.queue.items t = some item) (held : t ∈ s.queue.active)
      (dead : ownerAlive (s.alive claims) s.queue item = false)
      (change : Change s.queue (.requeue t item') q') :
      Turn s [.recovered item.holder t] {s with queue := q'}
  | deregister {p : Process} {f : Process → Process} (member : p ∈ s.procs) (holds : p.work.item = none) (keeps : Process.Keeps f)
      (exited : (f p).exited = true) (item : (f p).work.item = none) :
      Turn s [] ({s with queue := deregister p.slot s.queue}.revise p.pid f)
  | start {pid : Pid} {slot : Slot} {threaded : Bool} {namespaces : List Nat} {q' : Queue}
      (pid_ : ∀ p ∈ s.procs, p.pid ≠ pid) (slot_ : ∀ p ∈ s.procs, p.slot ≠ slot)
      (init : initWorker none pid slot s.queue = some q') : Turn s []
        {s with queue := q', procs := s.procs ++ [⟨pid,slot,false,false,.idle threaded,namespaces⟩]}
  | gone {pid : Pid} : Turn s [] {s with procs := s.procs.filter fun p => p.pid != pid}

abbrev Turns : System → List QueueOutput → System → Prop := Trace (Turn config picked)

end turns

section members
variable {s : System}

theorem findMember {pid : Pid} {p : Process} (found : s.find pid = some p) : p ∈ s.procs ∧ p.pid = pid :=
  ⟨List.mem_of_find?_eq_some found,by simpa using List.find?_some found⟩

/- The ways a step goes: nothing happens, a process starts or is gone, a pool thread ends
its pass, or a process that has not exited does its part. -/
inductive Acted (config : Config) (s : System) : WorkerEvent → System × List QueueOutput → Prop where
  | idle {e : WorkerEvent} : Acted config s e (s,[])
  | started {pid : Pid} {slot : Slot} {threaded : Bool} {namespaces : List Nat} {q' : Queue} (named : pid ≠ 0)
      (pids : ∀ p ∈ s.procs, p.pid ≠ pid) (slots : ∀ p ∈ s.procs, p.slot ≠ slot)
      (init : initWorker none pid slot s.queue = some q') :
      Acted config s (.start pid slot threaded namespaces)
        ({s with queue := q', procs := s.procs ++ [⟨pid,slot,false,false,.idle threaded,namespaces⟩]},[])
  | gone {pid : Pid} : Acted config s (.gone pid) ({s with procs := s.procs.filter fun p => p.pid != pid},[])
  | threaded {pid : Pid} {counters : Counters} {p : Process} (found : s.find pid = some p) :
      Acted config s (.thread pid counters) (s.setWork pid (threadRun counters p.work),s.walkEnd p)
  | processed {e : WorkerEvent} {p : Process} (found : s.find e.pid = some p) (running : p.exited = false) :
      Acted config s e (processStep config p s e)

theorem stepCases (config : Config) (s : System) (e : WorkerEvent) : Acted config s e (s.step config e) := by
  cases e with
  | start pid slot threaded namespaces =>
    simp only [System.step,startProcess]
    split
    · exact .idle
    · rename_i fresh
      split
      · exact .idle
      · rename_i init
        simp only [Bool.or_eq_true,List.any_eq_true,beq_iff_eq,not_or,not_exists,not_and] at fresh
        exact .started fresh.2 (fun p member same => (fresh.1 p member).1 same)
          (fun p member same => (fresh.1 p member).2 same) init
  | gone pid => exact .gone
  | thread pid counters =>
    simp only [System.step]
    split
    · exact .idle
    · rename_i found
      split
      · exact .threaded found
      · exact .idle
  | _ =>
    simp only [System.step]
    split
    · exact .idle
    · rename_i found
      split
      · exact .idle
      · rename_i running
        exact .processed found (by simpa using running)

theorem samePid (pids : (s.procs.map Process.pid).Nodup) {p r : Process} (left : p ∈ s.procs)
    (right : r ∈ s.procs) (same : p.pid = r.pid) : p = r :=
  List.inj_on_of_nodup_map pids left right same

theorem sameSlot (slots : (s.procs.map Process.slot).Nodup) {p r : Process} (left : p ∈ s.procs)
    (right : r ∈ s.procs) (same : p.slot = r.slot) : p = r :=
  List.inj_on_of_nodup_map slots left right same

theorem reviseMember {p r : Process} {f : Process → Process} {procs : List Process}
    (pids : (procs.map Process.pid).Nodup) (member : p ∈ procs)
    (inside : r ∈ procs.map fun other => if other.pid == p.pid then f other else other) :
    r = f p ∨ (r ∈ procs ∧ r.pid ≠ p.pid) := by
  obtain ⟨old,present,same⟩ := List.mem_map.mp inside
  split at same
  · rename_i mine
    left
    rw [← same,List.inj_on_of_nodup_map pids present member (by simpa using mine)]
  · rename_i other
    subst same
    exact .inr ⟨present,by simpa using other⟩

theorem reviseMap {β : Type} {f : Process → Process} {g : Process → β} (pid : Pid)
    (keeps : ∀ p, g (f p) = g p) (procs : List Process) :
    (procs.map fun p => if p.pid == pid then f p else p).map g = procs.map g := by
  rw [List.map_map]
  refine List.map_congr_left fun p _ => ?_
  dsimp only [Function.comp]
  split
  · exact keeps p
  · rfl

end members

def Act.ends : Act → Option TaskId
  | .requeue t _ | .retire t => some t
  | _ => none

theorem holderKept {q q' : Queue} {act : Act} (valid : q.Valid) (change : Change q act q') {t : TaskId}
    {item : Item} (here : q.items t = some item) (held : t ∈ q.active) (other : act.ends ≠ some t) :
    t ∈ q'.active ∧ ∃ item', q'.items t = some item' ∧ item'.holder = item.holder := by
  cases changeFate valid change here with
  | apart _ here' _ active => exact ⟨active.mpr held,item,here',rfl⟩
  | @renewed p here' _ active => exact ⟨active.mpr held,_,here',renewHolder p item⟩
  | started waiting => exact absurd waiting (activeNotPending valid held)
  | requeued => exact absurd rfl other
  | retired => exact absurd rfl other

section holders
variable {s : System} (valid : s.Valid)
include valid

theorem holdingKept {q' : Queue} {act : Act} (change : Change s.queue act q') {p : Process}
    (member : p ∈ s.procs) {t : TaskId} (holds : p.work.item = some t) (other : act.ends ≠ some t) :
    Holding q' p t := by
  obtain ⟨held,owner,item,here,holder⟩ := valid.holding p member t holds
  obtain ⟨held',item',here',kept⟩ := holderKept valid.queue change here held other
  have frame := changeFrame change
  refine ⟨held',by rw [frame.owners]; exact owner,item',here',?_⟩
  rw [kept,holder,frame.epochs]

theorem oneHolder {p r : Process} (left : p ∈ s.procs) (right : r ∈ s.procs) {t : TaskId}
    (holds : p.work.item = some t) (holds' : r.work.item = some t) : p = r := by
  obtain ⟨_,_,item,here,holder⟩ := valid.holding p left t holds
  obtain ⟨_,_,item',here',holder'⟩ := valid.holding r right t holds'
  cases Option.some.inj (here.symm.trans here')
  exact samePid valid.pids left right (congrArg Owner.pid (holder.symm.trans holder'))

theorem holderAlive {p : Process} (member : p ∈ s.procs) {t : TaskId} (holds : p.work.item = some t)
    {item : Item} (here : s.queue.items t = some item) (claims : Pid → Bool) :
    ownerAlive (s.alive claims) s.queue item = true := by
  obtain ⟨_,owner,_,there,holder⟩ := valid.holding p member t holds
  cases Option.some.inj (here.symm.trans there)
  have pid : item.owner = p.pid := congrArg Owner.pid holder
  have slot : item.ownerSlot = p.slot := congrArg Owner.slot holder
  have epoch : item.ownerEpoch = s.queue.epochs p.slot := congrArg Owner.epoch holder
  have seen : s.alive claims p.pid = true := by
    simp only [System.alive,Bool.or_eq_true,List.any_eq_true,beq_iff_eq]
    exact .inl ⟨p,member,rfl⟩
  simp [ownerAlive,pid,slot,epoch,owner,seen]

end holders

theorem reviseValid {s : System} (valid : s.Valid) {q' : Queue} (queue : q'.Valid) {p : Process}
    {f : Process → Process} (member : p ∈ s.procs) (keeps : Process.Keeps f)
    (registered : (f p).exited = false → q'.owners p.slot = p.pid)
    (mine : ∀ t, (f p).work.item = some t → Holding q' p t)
    (owners : ∀ r ∈ s.procs, r.pid ≠ p.pid → r.exited = false → q'.owners r.slot = r.pid)
    (others : ∀ r ∈ s.procs, r.pid ≠ p.pid → ∀ t, r.work.item = some t → Holding q' r t) :
    ({s with queue := q'}.revise p.pid f).Valid := by
  refine ⟨queue,?_,?_,fun r inside running => ?_,fun r inside t holds => ?_⟩
  · exact (reviseMap p.pid keeps.pid s.procs).symm ▸ valid.pids
  · exact (reviseMap p.pid keeps.slot s.procs).symm ▸ valid.slots
  · rcases reviseMember valid.pids member inside with rfl | ⟨present,apart⟩
    · rw [keeps.pid,keeps.slot]
      exact registered running
    · exact owners r present apart running
  · rcases reviseMember valid.pids member inside with rfl | ⟨present,apart⟩
    · have h := mine t holds
      refine ⟨h.held,?_,?_⟩
      · rw [keeps.pid,keeps.slot]
        exact h.registered
      · rw [keeps.pid,keeps.slot]
        exact h.holder
    · exact others r present apart t holds

/- Of a path only the WAITING gauges differ. -/
structure QueuePath.CountsOnly (path path' : QueuePath) : Prop where
  index : path'.index = path.index
  name : path'.name = path.name
  stats : ∀ slot field, field ≠ .waiting → path'.stats slot field = path.stats slot field

theorem initWorkerSpec {current : Option Slot} {pid : Pid} {slot : Slot} {q q' : Queue}
    (init : initWorker current pid slot q = some q') :
    q'.pending = q.pending ∧ q'.active = q.active ∧ q'.size = q.size ∧ q'.running = q.running ∧
    q'.maxSize = q.maxSize ∧ q'.paths = q.paths ∧ q'.items = q.items ∧
    (∀ a, (q.path a).CountsOnly (q'.path a)) ∧ q'.owners = Function.update q.owners slot pid ∧
    (∀ other, other ≠ slot → q'.epochs other = q.epochs other) ∧
    q'.probes = Function.update q.probes slot 0 ∧ slot < maxProcesses := by
  -- Clearing a counter of every path touches nothing but the counters.
  have cleared (f : QueuePath → QueuePath) (keeps : ∀ path, QueuePath.CountsOnly path (f path)) (paths : List Nat)
      (q : Queue) : ∃ path', paths.foldl (fun q a => q.modifyPath a f) q = {q with path := path'} ∧
        ∀ a, (q.path a).CountsOnly (path' a) := by
    induction paths generalizing q with
    | nil => exact ⟨q.path,rfl,fun _ => ⟨rfl,rfl,fun _ _ _ => rfl⟩⟩
    | cons b rest ih =>
      obtain ⟨path',same,later⟩ := ih (q.modifyPath b f)
      refine ⟨path',same,fun a => ?_⟩
      have next := later a
      simp only [Queue.modifyPath] at next
      rcases eq_or_ne a b with rfl | other
      · rw [Function.update_self] at next
        exact ⟨next.index.trans (keeps _).index,next.name.trans (keeps _).name,
          fun i field kept => (next.stats i field kept).trans ((keeps _).stats i field kept)⟩
      · rwa [Function.update_of_ne other] at next
  unfold initWorker at init
  split at init
  · contradiction
  rename_i within
  dsimp only at init
  split at init
  · contradiction
  cases Option.some.inj init
  obtain ⟨path',same,index⟩ := cleared (fun path => {path with
      stats := Function.update path.stats slot (Function.update (path.stats slot) .waiting 0)})
    (fun path => ⟨rfl,rfl,fun i field kept => by
      rcases eq_or_ne i slot with rfl | other
      · simp [kept]
      · simp [other]⟩) q.paths _
  rw [same]
  refine ⟨rfl,rfl,rfl,rfl,rfl,rfl,rfl,index,rfl,fun other apart => ?_,rfl,not_le.mp within⟩
  dsimp only
  split
  · rw [Function.update_of_ne apart]
  · rfl

section stays
variable {s : System} (valid : s.Valid)
include valid

theorem revisedValid {p : Process} {f : Process → Process} (member : p ∈ s.procs) (keeps : Process.Keeps f)
    (item : (f p).work.item = p.work.item) : (s.revise p.pid f).Valid :=
  reviseValid valid valid.queue member keeps
    (fun running => valid.registered p member (keeps.exited p running))
    (fun t holds => valid.holding p member t (item ▸ holds)) (fun r present _ => valid.registered r present)
    fun r present _ => valid.holding r present

theorem movedValid {q' : Queue} {act : Act} (zones' : Nat → Zone) (change : Change s.queue act q')
    (others : ∀ p ∈ s.procs, ∀ t, p.work.item = some t → act.ends ≠ some t) :
    ({s with queue := q', zones := zones'} : System).Valid := by
  have frame := changeFrame change
  exact ⟨changeValid valid.queue change,valid.pids,valid.slots,
    fun p member running => by rw [frame.owners]; exact valid.registered p member running,
    fun p member t holds => holdingKept valid change member holds (others p member t holds)⟩

theorem endedValid {q' : Queue} {act : Act} {p : Process} {t : TaskId} {f : Process → Process}
    (member : p ∈ s.procs) (holds : p.work.item = some t) (keeps : Process.Keeps f)
    (emptied : (f p).work.item = none) (change : Change s.queue act q') (ends : act.ends = some t) :
    ({s with queue := q'}.revise p.pid f).Valid := by
  have frame := changeFrame change
  refine reviseValid valid (changeValid valid.queue change) member keeps
    (fun running => by rw [frame.owners]; exact valid.registered p member (keeps.exited p running))
    (fun u inside => by simp [emptied] at inside)
    (fun r present _ still => by rw [frame.owners]; exact valid.registered r present still)
    fun r present other u inside => holdingKept valid change present inside fun same => ?_
  cases Option.some.inj (same.symm.trans ends)
  exact other (congrArg Process.pid (oneHolder valid present member inside holds))

end stays

theorem turnValid {config : Config} {picked : Option (Process × Item)} {s s' : System} {out : List QueueOutput}
    (valid : s.Valid) (turn : Turn config picked s out s') : s'.Valid := by
  cases turn with
  | alone member keeps item _ => exact revisedValid valid member keeps item
  | walk member keeps item => exact revisedValid valid member keeps item
  | shuffle change => exact movedValid valid s.zones change (by simp [Act.ends])
  | @accept _ _ _ _ zones' change => exact movedValid valid zones' change (by simp [Act.ends])
  | @renew _ _ _ _ _ zones' _ _ _ change => exact movedValid valid zones' change (by simp [Act.ends])
  | @take p t item q' poolFound root member here waiting running _ change =>
    have frame := changeFrame change
    refine reviseValid valid (changeValid valid.queue change) member ⟨fun _ => rfl,fun _ => rfl,
      fun _ h => h⟩ (fun _ => by rw [frame.owners]; exact valid.registered p member running)
      (fun u holds => ?_) (fun r present _ still => by
        rw [frame.owners]; exact valid.registered r present still)
      fun r present _ u holds => holdingKept valid change present holds (by simp [Act.ends])
    have same : u = t := Option.some.inj (holds.symm.trans beginHolds)
    subst u
    cases change with
    | start _ there _ active _ _ items _ =>
    exact ⟨by simp [active],by rw [frame.owners]; exact valid.registered p member running,_,
      by rw [items,Function.update_self],by rw [frame.epochs]; rfl⟩
  | requeue member holds keeps item change => exact endedValid valid member holds keeps item change rfl
  | retire member holds keeps emptied _ _ _ change => exact endedValid valid member holds keeps emptied change rfl
  | @recovered claims t item item' q' here held dead change =>
    refine movedValid valid s.zones change fun p member u holds same => ?_
    cases Option.some.inj same
    rw [holderAlive valid member holds here claims] at dead
    contradiction
  | @deregister p f member holds keeps exited item =>
    have others {r : Process} (present : r ∈ s.procs) (other : r.pid ≠ p.pid) : r.slot ≠ p.slot :=
      fun same => other (congrArg Process.pid (sameSlot valid.slots present member same))
    have queue : (deregister p.slot s.queue).Valid := registryValid valid.queue _ _
    refine reviseValid valid queue member keeps
      (fun running => by simp [exited] at running) (fun u inside => by simp [item] at inside)
      (fun r present other still => ?_) fun r present other u inside => ?_
    · simp only [deregister,Function.update_of_ne (others present other)]
      exact valid.registered r present still
    · have h := valid.holding r present u inside
      exact ⟨h.held,by simp only [deregister,Function.update_of_ne (others present other)]; exact h.registered,
        h.holder⟩
  | @start pid slot threaded namespaces q' freshPid freshSlot init =>
    obtain ⟨pending,active,size,running,maxSize,paths,items,index,owners,epochs,_⟩ := initWorkerSpec init
    have queue : q'.Valid := by
      have frame : Change s.queue .shuffle {s.queue with path := q'.path} :=
        .shuffle ⟨rfl,rfl,fun a => (index a).name,rfl,rfl,rfl⟩ (.refl _) (.refl _) rfl rfl rfl fun a => (index a).index
      have v := changeValid valid.queue frame
      exact ⟨⟨by rw [items]; exact v.indexed,v.distinct,by rw [items,paths]; exact v.placed,
        by rw [items]; exact v.keys⟩,by rw [size,pending]; exact v.size,by rw [running,active]; exact v.running,
        by rw [size,running,maxSize]; exact v.fits,by rw [pending,active]; exact v.nodup,
        by rw [items,pending,active]; exact v.cells,by rw [items,active]; exact v.flags⟩
    refine ⟨queue,?_,?_,fun p inside still => ?_,fun p inside t holds => ?_⟩
    · simpa [List.nodup_append,valid.pids] using freshPid
    · simpa [List.nodup_append,valid.slots] using freshSlot
    · rcases List.mem_append.mp inside with present | new
      · rw [owners,Function.update_of_ne (freshSlot p present)]
        exact valid.registered p present still
      · rw [List.mem_singleton.mp new,owners]
        simp
    · rcases List.mem_append.mp inside with present | new
      · have h := valid.holding p present t holds
        exact ⟨by rw [active]; exact h.held,by rw [owners,Function.update_of_ne (freshSlot p present)]; exact h.registered,
          by rw [items,epochs _ (freshSlot p present)]; exact h.holder⟩
      · rw [List.mem_singleton.mp new] at holds
        simp [Work.idle] at holds
  | @gone pid =>
    have sub : (s.procs.filter fun p => p.pid != pid).Sublist s.procs := List.filter_sublist
    exact ⟨valid.queue,(sub.map _).nodup valid.pids,(sub.map _).nodup valid.slots,
      fun p inside => valid.registered p (List.mem_of_mem_filter inside),
      fun p inside => valid.holding p (List.mem_of_mem_filter inside)⟩

end CachePurge
