import CachePurge.General.Leases
import CachePurge.WorkerSteps

/-! What holds in every reachable state of the workers, whatever the order of
their steps: the queue's representation, the exclusive ownership of a task, and
that an accepted request is served or still in the queue. -/
namespace CachePurge
open General

section representation
variable {config : Config} {picked : Option (Process × Item)}

theorem turnMaxSize {s s' : System} {out : List QueueOutput} (turn : Turn config picked s out s') :
    s'.queue.maxSize = s.queue.maxSize := by
  cases turn with
  | alone => rfl
  | walk => rfl
  | shuffle change => exact (changeFrame change).maxSize
  | accept change => exact (changeFrame change).maxSize
  | renew _ _ _ change => exact (changeFrame change).maxSize
  | take _ _ _ _ _ change => exact (changeFrame change).maxSize
  | requeue _ _ _ _ change => exact (changeFrame change).maxSize
  | retire _ _ _ _ _ _ _ change => exact (changeFrame change).maxSize
  | recovered _ _ _ change => exact (changeFrame change).maxSize
  | deregister => rfl
  | start _ _ init => exact (initWorkerSpec init).2.2.2.2.1
  | gone => rfl

theorem queueRepresentation (config : Config) (maxSize : Nat) (paths : List (Nat × Bytes))
    (epochs : Nat → Epoch) (events : List WorkerEvent) :
    let q := ((systemMachine config).after (systemInit maxSize paths epochs) events).queue
    q.size = q.pending.length ∧ q.running = q.active.length ∧ q.maxSize = maxSize ∧
    q.size + q.running ≤ q.maxSize ∧ q.pending.Nodup ∧ q.active.Nodup ∧ q.pending.Disjoint q.active ∧
    (∀ a, (q.path a).index.Nodup) ∧
    (∀ t, (∃ a ∈ q.paths, t ∈ (q.path a).index) ↔ t ∈ q.pending ∨ t ∈ q.active) ∧
    (∀ t, (q.items t).isSome ↔ t ∈ q.pending ∨ t ∈ q.active) ∧
    (∀ a, ∀ t ∈ (q.path a).index, ∀ u ∈ (q.path a).index,
      (q.items t).map Item.key = (q.items u).map Item.key → t = u) ∧
    ∀ t item, q.items t = some item → (item.running = true ↔ t ∈ q.active) := by
  intro q
  have valid : q.Valid := (runKeepsValid (initSystemValid maxSize paths epochs) events).queue
  have constant : q.maxSize = maxSize := @runInvariant config _
    (fun _ s => s.queue.maxSize = maxSize)
    (fun _ _ _ _ _ _ same turn => (turnMaxSize turn).trans same) (initSystemValid maxSize paths epochs) rfl events
  obtain ⟨pending,active,apart⟩ := List.nodup_append.mp valid.nodup
  refine ⟨valid.size,valid.running,constant,valid.fits,pending,active,
    fun t waiting held => apart t waiting t held rfl,valid.distinct,fun t => ?_,valid.cells,?_,valid.flags⟩
  · rw [← valid.cells t]
    constructor
    · rintro ⟨a,_,member⟩
      obtain ⟨item,here,_⟩ := (valid.indexed a t).mp member
      rw [here]
      rfl
    · intro present
      obtain ⟨item,here⟩ := Option.isSome_iff_exists.mp present
      exact ⟨item.path,valid.placed t item here,(valid.indexed _ t).mpr ⟨item,here,rfl⟩⟩
  · intro a t inside u inside' same
    obtain ⟨item,here,path⟩ := (valid.indexed a t).mp inside
    obtain ⟨other,there,path'⟩ := (valid.indexed a u).mp inside'
    exact valid.keys t u item other here there (path.trans path'.symm) (by simpa [here,there] using same)

end representation

section ownership
variable {config : Config}

def QueueOutput.lease : QueueOutput → Option (Lease TaskId Owner)
  | .started owner t _ => some (.granted t owner)
  | .finished owner t | .recovered owner t => some (.ended t owner)
  | _ => none

@[simp] theorem leaseAccepted (identity : Identity) :
    [QueueOutput.accepted identity].filterMap QueueOutput.lease = [] := rfl

@[simp] theorem leaseStarted (owner : Owner) (t : TaskId) (identity : Identity) :
    [QueueOutput.started owner t identity].filterMap QueueOutput.lease = [.granted t owner] := rfl

@[simp] theorem leaseFinished (owner : Owner) (t : TaskId) :
    [QueueOutput.finished owner t].filterMap QueueOutput.lease = [.ended t owner] := rfl

@[simp] theorem leaseRecovered (owner : Owner) (t : TaskId) :
    [QueueOutput.recovered owner t].filterMap QueueOutput.lease = [.ended t owner] := rfl

def Queue.holderOf (q : Queue) (t : TaskId) : Option Owner :=
  if t ∈ q.active then (q.items t).map Item.holder else none

def Act.holder (t : TaskId) (before : Option Owner) : Act → Option Owner
  | .start u owner => if t = u then some owner else before
  | .requeue u _ | .retire u => if t = u then none else before
  | _ => before

theorem holderChange {q q' : Queue} {act : Act} (valid : q.Valid) (change : Change q act q') (t : TaskId) :
    q'.holderOf t = act.holder t (q.holderOf t) := by
  cases here : q.items t with
  | none =>
    have idle : t ∉ q.active := fun held => by simpa [here] using (valid.cells t).mpr (.inr held)
    have idle' : t ∉ q'.active := fun held => by
      obtain ⟨item',here'⟩ := listedCell (changeValid valid change) (.inr held)
      have running := ((changeValid valid change).flags t item' here').mpr held
      rcases changeSource valid change here' with ⟨_,_,waits⟩ | ⟨item,there,_⟩
      · simp [waits] at running
      · simp [here] at there
    have silent : act.holder t none = none := by
      cases change with
      | @start _ u _ _ _ there =>
        have other : t ≠ u := by rintro rfl; simp [there] at here
        simp [Act.holder,other]
      | requeue => simp [Act.holder]
      | retire => simp [Act.holder]
      | _ => rfl
    simp [Queue.holderOf,idle,idle',silent]
  | some item =>
    cases changeFate valid change here with
    | apart other here' _ active =>
      have silent (before : Option Owner) : act.holder t before = before := by
        cases act <;> simp_all [Act.holder,Act.task,eq_comm]
      simp [Queue.holderOf,active,here,here',silent]
    | @renewed p here' _ active => simp [Queue.holderOf,Act.holder,active,here,here',renewHolder]
    | started _ here' held => simp [Queue.holderOf,Act.holder,held,here',Item.start,Item.holder]
    | requeued _ _ _ _ gone => simp [Queue.holderOf,Act.holder,gone]
    | retired _ _ gone => simp [Queue.holderOf,Act.holder,gone]

theorem walkEndLease (s : System) (p : Process) : (s.walkEnd p).filterMap QueueOutput.lease = [] := by
  unfold System.walkEnd
  split
  · rfl
  · rename_i t _
    cases s.identity t <;> rfl

def Leased (past : List QueueOutput) (s : System) : Prop :=
  ∀ t, Lease.follow t (past.filterMap QueueOutput.lease) = some (s.queue.holderOf t)

theorem holdingHolder {q : Queue} {p : Process} {t : TaskId} (holding : Holding q p t) :
    q.holderOf t = some ⟨p.pid,p.slot,q.epochs p.slot⟩ := by
  obtain ⟨item,here,holder⟩ := holding.holder
  simp [Queue.holderOf,holding.held,here,holder]

theorem turnLeased {picked : Option (Process × Item)} {past : List QueueOutput} {s s' : System}
    {out : List QueueOutput} (valid : s.Valid) (leased : Leased past s) (turn : Turn config picked s out s') : Leased (past ++ out) s' := by
  intro u
  have before := leased u
  -- A turn that ends the pass of t, whose holder is known.
  have ends {t : TaskId} {owner : Owner} (holder : s.queue.holderOf t = some owner) :
      Lease.next u (s.queue.holderOf u) (.ended t owner) =
        some (if u = t then none else s.queue.holderOf u) := by
    rcases eq_or_ne u t with rfl | other
    · simp [Lease.next,holder]
    · simp [Lease.next,other,Ne.symm other]
  rw [List.filterMap_append]
  cases turn with
  | alone => simpa [System.revise] using before
  | walk => simpa [walkEndLease,System.revise] using before
  | shuffle change => simpa [holderChange valid.queue change u,Act.holder] using before
  | accept change => simpa [holderChange valid.queue change u,Act.holder] using before
  | renew _ _ _ change => simpa [holderChange valid.queue change u,Act.holder] using before
  | @take p t item q' poolFound root member here waiting running _ change =>
    have idle : s.queue.holderOf t = none := by
      rw [Queue.holderOf,if_neg fun held => activeNotPending valid.queue held waiting]
    have after := holderChange valid.queue change u
    rw [leaseStarted,Lease.followSnoc,before]
    simp only [Option.bind_some,System.setWork,System.revise,after,Act.holder]
    rcases eq_or_ne u t with rfl | other
    · simp [Lease.next,idle]
    · simp [Lease.next,other,Ne.symm other]
  | @requeue p t item' q' f member holds keeps item change =>
    have after := holderChange valid.queue change u
    rw [leaseFinished,Lease.followSnoc,before]
    simp only [Option.bind_some,System.revise,after,Act.holder]
    exact ends (holdingHolder (valid.holding p member t holds))
  | @retire p t item q' f member holds keeps emptied here steady complete change =>
    have after := holderChange valid.queue change u
    rw [leaseFinished,Lease.followSnoc,before]
    simp only [Option.bind_some,System.revise,after,Act.holder]
    exact ends (holdingHolder (valid.holding p member t holds))
  | @recovered claims t item item' q' here held dead change =>
    have after := holderChange valid.queue change u
    rw [leaseRecovered,Lease.followSnoc,before]
    simp only [Option.bind_some,after,Act.holder]
    exact ends (by simp [Queue.holderOf,held,here])
  | deregister => simpa [System.revise,deregister,Queue.holderOf] using before
  | start _ _ init =>
    obtain ⟨_,active,_,_,_,_,items,_⟩ := initWorkerSpec init
    simpa [Queue.holderOf,active,items] using before
  | gone => simpa using before

/- A task is held by at most one live process, recovery leaves such a task where
it is, and each pass is ended once, under the name of the worker that started it. -/
theorem tasksExclusive (config : Config) (maxSize : Nat) (paths : List (Nat × Bytes))
    (epochs : Nat → Epoch) (events : List WorkerEvent) :
    let s := (systemMachine config).after (systemInit maxSize paths epochs) events
    let history := ((systemMachine config).outputs (systemInit maxSize paths epochs) events).filterMap
      QueueOutput.lease
    (∀ p ∈ s.procs, ∀ r ∈ s.procs, ∀ t, p.work.item = some t → r.work.item = some t → p = r) ∧
    (∀ p ∈ s.procs, ∀ t, p.work.item = some t → ∀ pid now locked claims,
      t ∈ (s.step config (.recover pid now locked claims)).1.queue.active ∧
      t ∉ (s.step config (.recover pid now locked claims)).1.queue.pending) ∧
    (∀ t, Lease.follow t history = some (s.queue.holderOf t)) ∧
    ∀ t owner front back, history = front ++ .ended t owner :: back →
      ∃ before between, front = before ++ .granted t owner :: between ∧
        ∀ other, .granted t other ∉ between ∧ .ended t other ∉ between := by
  intro s history
  have valid : s.Valid := runKeepsValid (initSystemValid maxSize paths epochs) events
  have leased : Leased ((systemMachine config).outputs (systemInit maxSize paths epochs) events) s :=
    runInvariant (fun _ _ _ _ _ valid leased turn => turnLeased valid leased turn)
      (initSystemValid maxSize paths epochs) (fun t => by simp [Queue.holderOf,systemInit,queueInit]) events
  refine ⟨fun p left r right t holds holds' => oneHolder valid left right holds holds',?_,leased,?_⟩
  · intro p member t holds pid now locked claims
    have next := @stepKeepsValid config _ valid (.recover pid now locked claims)
    have still : p ∈ (s.step config (.recover pid now locked claims)).1.procs := by
      simp only [System.step]
      split
      · exact member
      · split <;> exact member
    have held := (next.holding p still t holds).held
    exact ⟨held,activeNotPending next.queue held⟩
  · intro t owner front back split
    have followed := leased t
    change Lease.follow t history = _ at followed
    rw [split] at followed
    exact Lease.endedGrant followed

end ownership

section acceptance
variable {config : Config}

def Served (id : Identity) (history : List QueueOutput) : Prop :=
  ∃ owner t, [.started owner t id,.walked owner t id].Sublist history

/- The identity is served, or pending, or running in a pass that is in the history
or will be repeated. -/
inductive Covered (id : Identity) (history : List QueueOutput) (q : Queue) : Prop where
  | served (h : Served id history)
  | pending {t : TaskId} {item : Item} (waiting : t ∈ q.pending) (here : q.items t = some item)
      (same : item.identity = id)
  | active {t : TaskId} {item : Item} (held : t ∈ q.active) (here : q.items t = some item)
      (same : item.identity = id) (pass : item.rerun = true ∨ .started item.holder t id ∈ history)

theorem servedGrows {id : Identity} {history : List QueueOutput} (served : Served id history)
    (more : List QueueOutput) : Served id (history ++ more) := by
  obtain ⟨owner,t,sub⟩ := served
  exact ⟨owner,t,sub.trans (List.sublist_append_left history more)⟩

theorem coveredGrows {id : Identity} {history : List QueueOutput} {q : Queue}
    (covered : Covered id history q) (more : List QueueOutput) : Covered id (history ++ more) q := by
  cases covered with
  | served h => exact .served (servedGrows h more)
  | pending waiting here same => exact .pending waiting here same
  | active held here same pass =>
    exact .active held here same (pass.imp_right (List.mem_append_left more))

theorem coveredFields {id : Identity} {history : List QueueOutput} {q q' : Queue}
    (covered : Covered id history q) (pending : q'.pending = q.pending) (active : q'.active = q.active)
    (items : q'.items = q.items) : Covered id history q' := by
  cases covered with
  | served h => exact .served h
  | pending waiting here same => exact .pending (pending ▸ waiting) (items ▸ here) same
  | active held here same pass => exact .active (active ▸ held) (items ▸ here) same pass

theorem carriesIdentity {item item' : Item} (carries : item.Carries item') :
    item'.identity = item.identity := by
  simp [Item.identity,carries.key,carries.path]

theorem coveredChange {id : Identity} {history : List QueueOutput} {q q' : Queue} {act : Act}
    (valid : q.Valid) (covered : Covered id history q) (change : Change q act q')
    (starts : ∀ t owner, act = .start t owner → ∀ item, q.items t = some item → item.identity = id →
      .started owner t id ∈ history)
    (retires : ∀ t, act = .retire t → ∀ item, q.items t = some item → item.identity = id →
      (item.rerun = true ∨ .started item.holder t id ∈ history) → Served id history) :
    Covered id history q' := by
  cases covered with
  | served h => exact .served h
  | @pending t item waiting here same =>
    cases changeFate valid change here with
    | apart _ here' pending _ => exact .pending (pending.mpr waiting) here' same
    | @renewed p here' pending _ =>
      exact .pending (pending.mpr waiting) here' ((carriesIdentity (renewCarries p item)).trans same)
    | @started owner _ here' held =>
      exact .active held here' ((carriesIdentity (startCarries owner item)).trans same)
        (.inr (starts t owner rfl item here same))
    | requeued held => exact absurd waiting (activeNotPending valid held)
    | retired held => exact absurd waiting (activeNotPending valid held)
  | @active t item held here same pass =>
    cases changeFate valid change here with
    | apart _ here' _ active => exact .active (active.mpr held) here' same pass
    | @renewed p here' _ active =>
      have running := (valid.flags t item here).mpr held
      exact .active (active.mpr held) here' ((carriesIdentity (renewCarries p item)).trans same)
        (.inl (by simp [Purge.renew,running]))
    | started waiting => exact absurd waiting (activeNotPending valid held)
    | requeued _ carries here' waiting =>
      exact .pending waiting here' ((carriesIdentity carries).trans same)
    | retired => exact .served (retires t rfl item here same pass)

theorem changeIdentity {q q' : Queue} {act : Act} (valid : q.Valid) (change : Change q act q') {t : TaskId}
    {item item' : Item} (here : q.items t = some item) (here' : q'.items t = some item') :
    item'.identity = item.identity := by
  rcases changeSource valid change here' with ⟨_,absent,_⟩ | ⟨old,there,carries⟩
  · rw [absent] at here
    contradiction
  · cases Option.some.inj (here.symm.trans there)
    exact carriesIdentity carries

structure Kept (id : Identity) (past : List QueueOutput) (s : System) : Prop where
  covered : Covered id past s.queue
  walked : ∀ p ∈ s.procs, ∀ t, p.work.item = some t → p.work.complete = true →
    s.identity t = some id → .started (s.owner p) t id ∈ past → Served id past

theorem walkEndStarted (s : System) (p : Process) (owner : Owner) (t : TaskId) (id : Identity) :
    QueueOutput.started owner t id ∉ s.walkEnd p := by
  unfold System.walkEnd
  split
  · simp
  · rename_i u _
    cases s.identity u <;> simp

section keeping
variable {id : Identity} {past : List QueueOutput} {s : System} (valid : s.Valid) (kept : Kept id past s)
include valid kept

theorem walkedOther {q' : Queue} {act : Act} (change : Change s.queue act q') {p : Process}
    (member : p ∈ s.procs) {t : TaskId} (holds : p.work.item = some t) (complete : p.work.complete = true)
    (same : (q'.items t).map Item.identity = some id)
    (started : .started ⟨p.pid,p.slot,q'.epochs p.slot⟩ t id ∈ past) : Served id past := by
  obtain ⟨item,here,_⟩ := (valid.holding p member t holds).holder
  obtain ⟨item',here',rfl⟩ := Option.map_eq_some_iff.mp same
  rw [(changeFrame change).epochs] at started
  refine kept.walked p member t holds complete ?_ started
  simp [System.identity,here,changeIdentity valid.queue change here here']

theorem keptQueue {q' : Queue} {act : Act} (change : Change s.queue act q') (out : List QueueOutput)
    (silent : ∀ owner t, .started owner t id ∉ out) (starts : ∀ t owner, act ≠ .start t owner)
    (retires : ∀ t, act ≠ .retire t) : Kept id (past ++ out) {s with queue := q'} := by
  refine ⟨coveredChange valid.queue (coveredGrows kept.covered out)
    change (fun t owner same => absurd same (starts t owner)) fun t same => absurd same (retires t),?_⟩
  intro p member t holds complete same started
  have earlier := (List.mem_append.mp started).resolve_right (silent _ _)
  exact servedGrows (walkedOther valid kept change member holds complete same earlier) out

theorem turnKept {picked : Option (Process × Item)} {s' : System} {out : List QueueOutput}
    (walks : ∀ p item, picked = some (p,item) → item.identity = id → ¬ item.abandoned config.names p.namespaces)
    (turn : Turn config picked s out s') : Kept id (past ++ out) s' := by
  cases turn with
  | @alone p f member keeps item complete =>
    rw [List.append_nil]
    refine ⟨kept.covered,fun r inside t holds done same started => ?_⟩
    rcases reviseMember valid.pids member inside with rfl | ⟨present,_⟩
    · rw [System.owner,keeps.pid,keeps.slot] at started
      exact kept.walked p member t (item ▸ holds) (complete done) same started
    · exact kept.walked r present t holds done same started
  | @walk p f member keeps item =>
    refine ⟨coveredGrows kept.covered _,fun r inside t holds done same started => ?_⟩
    have earlier := (List.mem_append.mp started).resolve_right (walkEndStarted s p _ t id)
    rcases reviseMember valid.pids member inside with rfl | ⟨present,_⟩
    · rw [System.owner,keeps.pid,keeps.slot] at earlier
      have same : s.identity t = some id := same
      have last : s.walkEnd p = [.walked (s.owner p) t id] := by
        simp [System.walkEnd,item ▸ holds,same]
      rw [last]
      exact ⟨s.owner p,t,(List.singleton_sublist.mpr earlier).append (.refl _)⟩
    · exact servedGrows (kept.walked r present t holds done same earlier) _
  | shuffle change => exact keptQueue valid kept change [] (by simp) (by simp) (by simp)
  | @accept purge a t q' zones' change =>
    have h := keptQueue valid kept change [.accepted ⟨a,purge.indexKey config.names⟩] (by simp) (by simp) (by simp)
    exact ⟨h.covered,h.walked⟩
  | @renew purge a t item q' zones' here path key change =>
    have h := keptQueue valid kept change [.accepted ⟨a,purge.indexKey config.names⟩] (by simp)
      (by simp) (by simp)
    exact ⟨h.covered,h.walked⟩
  | @take p t item q' poolFound root member here waiting running this change =>
    refine ⟨coveredChange valid.queue (coveredGrows kept.covered _)
      change ?_ (by simp),fun r inside u holds done same started => ?_⟩
    · intro u owner act other there identity
      cases act
      cases Option.some.inj (here.symm.trans there)
      simp [identity]
    · rcases reviseMember valid.pids member inside with rfl | ⟨present,_⟩
      · -- The new pass is complete at once only where its worker makes no walk.
        cases Option.some.inj (beginHolds.symm.trans holds)
        have lost : item.abandoned config.names p.namespaces := beginComplete.mp done
        obtain ⟨item',here',rfl⟩ := Option.map_eq_some_iff.mp same
        exact absurd lost (walks p item this (changeIdentity valid.queue change here here').symm)
      · have apart : u ≠ t := by
          rintro rfl
          exact activeNotPending valid.queue (valid.holding r present u holds).held waiting
        have earlier := (List.mem_append.mp started).resolve_right (by simp [apart])
        exact servedGrows (walkedOther valid kept change present holds done same earlier) _
  | @requeue p t item' q' f member holds keeps emptied change =>
    have h := keptQueue valid kept change [.finished (s.owner p) t] (by simp) (by simp) (by simp)
    refine ⟨h.covered,fun r inside u holds' done same started => ?_⟩
    rcases reviseMember valid.pids member inside with rfl | ⟨present,_⟩
    · simp [emptied] at holds'
    · exact h.walked r present u holds' done same started
  | @retire p t item q' f member holds keeps emptied here steady complete change =>
    refine ⟨coveredChange valid.queue (coveredGrows kept.covered _)
      change (by simp) ?_,fun r inside u holds' done same started => ?_⟩
    · intro u act other there identity pass
      cases act
      cases Option.some.inj (here.symm.trans there)
      -- Nobody asked to repeat the pass, so it started since, and it was walked to its end.
      have started := pass.resolve_left (by simp [steady])
      have earlier := (List.mem_append.mp started).resolve_right (by simp)
      obtain ⟨_,there',holder⟩ := (valid.holding p member t holds).holder
      cases Option.some.inj (here.symm.trans there')
      rw [holder] at earlier
      exact servedGrows (kept.walked p member t holds complete
        (by simp [System.identity,here,identity]) earlier) _
    · have earlier := (List.mem_append.mp started).resolve_right (by simp)
      rcases reviseMember valid.pids member inside with rfl | ⟨present,_⟩
      · simp [emptied] at holds'
      · exact servedGrows (walkedOther valid kept change present holds' done same earlier) _
  | recovered here held dead change =>
    exact keptQueue valid kept change _ (by simp) (by simp) (by simp)
  | @deregister p f member holds keeps exited emptied =>
    rw [List.append_nil]
    refine ⟨coveredFields kept.covered rfl rfl rfl,fun r inside t holds' done same started => ?_⟩
    rcases reviseMember valid.pids member inside with rfl | ⟨present,_⟩
    · simp [emptied] at holds'
    · exact kept.walked r present t holds' done same started
  | @start pid slot threaded namespaces q' freshPid freshSlot init =>
    obtain ⟨pending,active,_,_,_,_,items,_,_,epochs,_⟩ := initWorkerSpec init
    rw [List.append_nil]
    refine ⟨coveredFields kept.covered pending active items,fun r inside t holds done same started => ?_⟩
    rcases List.mem_append.mp inside with present | new
    · refine kept.walked r present t holds done ?_ ?_
      · simpa [System.identity,items] using same
      · simpa [System.owner,epochs _ (freshSlot r present)] using started
    · rw [List.mem_singleton.mp new] at holds
      simp [Work.idle] at holds
  | gone =>
    rw [List.append_nil]
    exact ⟨kept.covered,fun r inside => kept.walked r (List.mem_of_mem_filter inside)⟩

end keeping

theorem coveredAccepted {q q' : Queue} (valid : q.Valid) {slot : Option Slot} {a : Nat} {t : TaskId}
    {purge : Purge}
    (done : (∃ item, q.items t = some item ∧ item.path = a ∧ item.key = purge.indexKey config.names ∧
      Accounted slot q (.renew t purge) q') ∨ Accounted slot q (.accept t (purge.item config.names a)) q') :
    Covered ⟨a,purge.indexKey config.names⟩ [] q' := by
  rcases done with ⟨item,here,path,key,change,_⟩ | ⟨change,_⟩
  · cases change with
    | renew _ there pending active _ _ items _ =>
    cases Option.some.inj (here.symm.trans there)
    have carries := renewCarries purge item
    have same : (purge.renew item).identity = ⟨a,purge.indexKey config.names⟩ := by
      simp [Item.identity,carries.path,carries.key,path,key]
    have here' : q'.items t = some (purge.renew item) := by rw [items,Function.update_self]
    rcases cellListed valid here with waiting | held
    · exact .pending (pending ▸ waiting) here' same
    · have running := (valid.flags t item here).mpr held
      exact .active (active ▸ held) here' same (.inl (by simp [Purge.renew,running]))
  · cases change with
    | accept _ _ _ _ _ _ pending _ _ _ items _ =>
    have waiting : t ∈ q'.pending := by rw [pending]; simp
    exact .pending waiting (by rw [items,Function.update_self]) rfl

def NotLost (id : Identity) (history : List QueueOutput) (q : Queue) : Prop :=
  Served id history ∨
  (∃ t item, t ∈ q.pending ∧ t ∈ (q.path id.path).index ∧ q.items t = some item ∧ item.identity = id) ∨
  ∃ t item, t ∈ q.active ∧ t ∈ (q.path id.path).index ∧ q.items t = some item ∧ item.identity = id ∧
    (item.rerun = true ∨ .started item.holder t id ∈ history)

def System.walksFor (config : Config) (id : Identity) (s : System) (e : WorkerEvent) : Bool :=
  (s.picks e).all fun (p,item) => item.identity != id || !decide (item.abandoned config.names p.namespaces)

theorem walksForTaken {id : Identity} {s : System} {e : WorkerEvent} (walks : s.walksFor config id e = true)
    (p : Process) (item : Item) (this : s.picks e = some (p,item)) (same : item.identity = id) :
    ¬ item.abandoned config.names p.namespaces := by
  simpa [System.walksFor,this,same] using walks

/- Once enqueue has returned NGX_OK for an identity, it is not lost, unless a worker whose
configuration lacks the namespace takes the task: it would retire it without a walk. -/
theorem acceptedNotLost (config : Config) (maxSize : Nat) (paths : List (Nat × Bytes))
    (epochs : Nat → Epoch) (front back : List WorkerEvent) (pid : Pid) (purge : Purge) (o : Outcome)
    (p : Process) :
    let s := (systemMachine config).after (systemInit maxSize paths epochs) front
    let s₁ := (s.step config (.enqueue pid purge o)).1
    let q := ((systemMachine config).after s₁ back).queue
    let history := (systemMachine config).outputs s₁ back
    s.find pid = some p → p.exited = false →
    (enqueue config.platform config.names (some p.slot) p.leaving purge o s.queue s.zones).1 = .ok →
    ∃ a, s.queue.findPath config.platform purge.cachePath = some a ∧
      let id : Identity := ⟨a,purge.indexKey config.names⟩
      (systemMachine config).along (System.walksFor config id) s₁ back = true → NotLost id history q := by
  intro s s₁ q history found running ok
  have valid : s.Valid := runKeepsValid (initSystemValid maxSize paths epochs) front
  have valid₁ : s₁.Valid := stepKeepsValid valid _
  obtain ⟨_,_,a,t,path,done⟩ := enqueueAccepted valid.queue.toCatalog ok
  refine ⟨a,path,fun met => ?_⟩
  have step : s₁.queue = (enqueue config.platform config.names (some p.slot) p.leaving purge o
      s.queue s.zones).2.1 := by
    simp only [s₁,System.step,WorkerEvent.pid,found,running,processStep,enqueueStep]
    rfl
  rw [← step] at done
  have start : Kept ⟨a,purge.indexKey config.names⟩ [] s₁ :=
    ⟨coveredAccepted valid.queue done,fun _ _ _ _ _ _ started => by simp at started⟩
  have final : Kept ⟨a,purge.indexKey config.names⟩ history ((systemMachine config).after s₁ back) :=
    runKeeps (P := Kept ⟨a,purge.indexKey config.names⟩)
      (fun _ _ walks _ _ _ _ valid kept turn => turnKept valid kept (walksForTaken walks) turn) valid₁ start met
  have last : q.Valid := (runKeepsValid valid₁ back).queue
  have indexed {t : TaskId} {item : Item} (here : q.items t = some item)
      (same : item.identity = ⟨a,purge.indexKey config.names⟩) : t ∈ (q.path a).index :=
    (last.indexed a t).mpr ⟨item,here,congrArg Identity.path same⟩
  cases final.covered with
  | served h => exact .inl h
  | @pending t item waiting here same => exact .inr (.inl ⟨t,item,waiting,indexed here same,here,same⟩)
  | @active t item held here same pass =>
    exact .inr (.inr ⟨t,item,held,indexed here same,here,same,pass⟩)

def siteConfig : Config := ⟨posix,fun _ => siteName⟩

def reloadFront : List WorkerEvent := [.start 7 0 false [],.start 8 1 false [0]]

def reloadBack : List WorkerEvent :=
  [.leave 7,.take 7 9 true false,.take 8 10 true false,.slice 8 false ⟨1,0,0,20⟩,.finish 8 11 true]

def reloadInit : System := systemInit 4 [(1,[47,99])] fun _ => siteEpoch

def siteOutcome : Outcome := ⟨true,true,some 5,[some 8,some 9]⟩

theorem acceptedWalked :
    let s := (systemMachine siteConfig).after reloadInit reloadFront
    let s₁ := (s.step siteConfig (.enqueue 8 sitePurge siteOutcome)).1
    let q := ((systemMachine siteConfig).after s₁ reloadBack).queue
    let history := (systemMachine siteConfig).outputs s₁ reloadBack
    NotLost ⟨1,71 :: siteName.bytes⟩ history q := by
  intro s s₁ q history
  have found : s.find 8 = some ⟨8,1,false,false,.idle false,[0]⟩ := by rfl
  have ok : (enqueue posix (fun _ => siteName) (some 1) false sitePurge siteOutcome s.queue s.zones).1 = .ok := by
    decide
  obtain ⟨a,path,covered⟩ := acceptedNotLost siteConfig 4 [(1,[47,99])] (fun _ => siteEpoch) reloadFront reloadBack 8
    sitePurge siteOutcome _ found rfl ok
  have one : s.queue.findPath posix sitePurge.cachePath = some 1 := by rfl
  cases Option.some.inj (one.symm.trans path)
  have met : (systemMachine siteConfig).along (System.walksFor siteConfig ⟨1,71 :: siteName.bytes⟩) s₁ reloadBack =
      true := by decide
  exact covered met

theorem acceptedDropped :
    let s := (systemMachine siteConfig).after reloadInit reloadFront
    let s₁ := (s.step siteConfig (.enqueue 8 sitePurge siteOutcome)).1
    let back : List WorkerEvent := [.take 7 9 true false,.finish 7 10 true]
    let q := ((systemMachine siteConfig).after s₁ back).queue
    s.find 8 = some ⟨8,1,false,false,.idle false,[0]⟩ ∧ s.queue.findPath posix sitePurge.cachePath = some 1 ∧
    (enqueue posix (fun _ => siteName) (some 1) false sitePurge siteOutcome s.queue s.zones).1 = .ok ∧
    ¬ NotLost ⟨1,71 :: siteName.bytes⟩ ((systemMachine siteConfig).outputs s₁ back) q := by
  intro s s₁ back q
  have history : (systemMachine siteConfig).outputs s₁ back =
      [.started ⟨7,0,1⟩ 5 ⟨1,71 :: siteName.bytes⟩,.finished ⟨7,0,1⟩ 5] := by rfl
  have pending : q.pending = [] := by rfl
  have active : q.active = [] := by rfl
  refine ⟨by rfl,by rfl,by decide,?_⟩
  rw [NotLost,history,pending,active]
  rintro (⟨owner,t,sub⟩ | ⟨_,_,waiting,_⟩ | ⟨_,_,held,_⟩)
  · simpa using sub.subset (List.mem_cons_of_mem _ List.mem_cons_self)
  · simp at waiting
  · simp at held

end acceptance

end CachePurge
