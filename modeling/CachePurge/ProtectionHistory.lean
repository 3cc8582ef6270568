import CachePurge.QueueRetries
import CachePurge.WorkerOthers

/-! The protection of a pass: whatever the order of requests, passes, retries and
recoveries, a pass starts with that of the newest accepted request of its task, and
keeps it. -/
namespace CachePurge
open General

/- What requests bring and passes are given. -/
inductive Given where
  | accepted (identity : Identity) (protection : Protection)
  | begun (pid : Pid) (t : TaskId) (identity : Identity) (protection : Protection)
  deriving DecidableEq, Repr

namespace Given

def request (i : Identity) : Given → Option Protection
  | .accepted j protection => if j = i then some protection else none
  | .begun _ _ _ _ => none

def pass (pid : Pid) : Given → Option (TaskId × Protection)
  | .accepted _ _ => none
  | .begun other t _ protection => if other = pid then some (t,protection) else none

end Given

/- The snapshot of a request, and what a process has when its pass has started. -/
def QueueOutput.given (config : Config) (s : System) (e : WorkerEvent) : QueueOutput → Option Given
  | .accepted identity => match e with
    | .enqueue _ purge _ => some (.accepted identity purge.protection)
    | _ => none
  | .started owner t identity =>
    ((s.step config e).1.find owner.pid).map fun p => .begun owner.pid t identity p.work.protection
  | _ => none

def givenOf (config : Config) (s : System) (e : WorkerEvent) : List Given :=
  (s.step config e).2.filterMap (QueueOutput.given config s e)

def protectionMachine (config : Config) : Machine System WorkerEvent Given :=
  (systemMachine config).watch (givenOf config)

def Item.wanted (item : Item) : Protection := item.nextProtection.getD item.protection

structure Item.Current (past : List Given) (item : Item) : Prop where
  newest : newest (Given.request item.identity) past = some item.wanted
  idle : item.running = false → item.nextProtection = none

def Current (past : List Given) (q : Queue) : Prop := ∀ t item, q.items t = some item → item.Current past

structure Guarded (past : List Given) (s : System) : Prop where
  valid : s.Valid
  tasks : Current past s.queue
  passes : ∀ p ∈ s.procs, ∀ t, p.work.item = some t → newest (Given.pass p.pid) past = some (t,p.work.protection)

def Fresh (past : List Given) : Given → Prop
  | .accepted _ _ => True
  | .begun _ _ identity protection => newest (Given.request identity) past = some protection

section items

theorem renewWanted (p : Purge) {item : Item} (idle : item.running = false → item.nextProtection = none) :
    (p.renew item).wanted = p.protection ∧ (p.renew item).identity = item.identity ∧
    ((p.renew item).running = false → (p.renew item).nextProtection = none) := by
  unfold Purge.renew
  cases running : item.running with
  | true => exact ⟨rfl,rfl,fun stopped => by simp at stopped⟩
  | false =>
    refine ⟨?_,rfl,fun _ => idle running⟩
    simp [Item.wanted,idle running]

theorem requeueWanted (now : UInt64) (item : Item) : (item.requeue now).wanted = item.wanted ∧
    (item.requeue now).identity = item.identity ∧ (item.requeue now).nextProtection = none := by
  unfold Item.requeue Item.wanted
  cases next : item.nextProtection with
  | none => exact ⟨rfl,rfl,rfl⟩
  | some protection => exact ⟨rfl,rfl,rfl⟩

theorem settledWanted {now : UInt64} {w : Work} {item item' : Item} (again : item.settled now w = some item') :
    item'.wanted = item.wanted ∧ item'.identity = item.identity ∧ item'.nextProtection = none := by
  unfold Item.settled at again
  split at again
  · cases Option.some.inj again
    exact requeueWanted now ({item with retries := 0, retryAt := 0} : Item)
  · split at again
    · cases Option.some.inj again
      exact requeueWanted now
        ({item with retryAt := now + retryDelay item.retries, retries := item.retries + 1} : Item)
    · contradiction

end items

section current
variable {past : List Given} {q q' : Queue}

theorem currentUpdated (current : Current past q) {t : TaskId} {cell : Option Item}
    (items : q'.items = Function.update q.items t cell) (fits : ∀ item, cell = some item → item.Current past) :
    Current past q' := by
  intro u item here
  rcases updatedItem items here with ⟨_,same⟩ | ⟨_,there⟩
  · exact fits item same
  · exact current u item there

theorem tendedCurrent {out : List Seen} (current : Current past q) (turn : Tended q out q')
    (quiet : ∀ i, .accepted i ∉ out) : Current past q' := by
  cases turn with
  | untouched items _ =>
    intro t item here
    exact current t item (items ▸ here)
  | admitted => exact absurd List.mem_cons_self (quiet _)
  | renewed => exact absurd List.mem_cons_self (quiet _)
  | @started _ t item owner here items _ =>
    refine currentUpdated current items fun item' same => ?_
    cases Option.some.inj same
    have before := current t item here
    exact ⟨before.newest,fun stopped => by simp [Item.start] at stopped⟩
  | @lost _ t item now here items _ =>
    refine currentUpdated current items fun item' same => ?_
    cases Option.some.inj same
    obtain ⟨wanted,identity,next⟩ := requeueWanted now item
    exact ⟨by rw [identity,wanted]; exact (current t item here).newest,fun _ => next⟩
  | @ended _ t item slot now w here unique items _ =>
    refine currentUpdated current items fun item' again => ?_
    obtain ⟨wanted,identity,next⟩ := settledWanted again
    exact ⟨by rw [identity,wanted]; exact (current t item here).newest,fun _ => next⟩

theorem currentAccepted (current : Current past q) (i : Identity) (protection : Protection) {t : TaskId} {item : Item}
    (items : q'.items = Function.update q.items t (some item))
    (unique : ∀ u other, q.items u = some other → u ≠ t → other.identity ≠ i)
    (fits : item.Current (past ++ [.accepted i protection])) : Current (past ++ [.accepted i protection]) q' := by
  intro u other here
  rcases updatedItem items here with ⟨_,same⟩ | ⟨apart,there⟩
  · cases Option.some.inj same
    exact fits
  · have before := current u other there
    refine ⟨?_,before.idle⟩
    rw [newestQuiet]
    · exact before.newest
    · intro o member
      rw [List.mem_singleton.mp member]
      simp [Given.request,Ne.symm (unique u other there apart)]

end current

section steps
variable {config : Config} {past : List Given} {s : System}

def QueueOutput.plain : QueueOutput → Bool
  | .accepted _ => false
  | .started _ _ _ => false
  | _ => true

theorem givenPlain {e : WorkerEvent} (plain : ∀ o ∈ (s.step config e).2, o.plain = true) : givenOf config s e = [] := by
  refine List.filterMap_eq_nil_iff.mpr fun o member => ?_
  have other := plain o member
  cases o with
  | accepted => contradiction
  | started => contradiction
  | _ => rfl

theorem currentPlain (valid : s.Valid) (current : Current past s.queue) {e : WorkerEvent}
    (plain : ∀ o ∈ (s.step config e).2, o.plain = true) : Current past (s.step config e).1.queue := by
  have quiet (i : Identity) : .accepted i ∉ seenOf config s e := by
    intro member
    obtain ⟨o,there,seen⟩ := List.mem_filterMap.mp member
    have other := plain o there
    cases o with
    | accepted => contradiction
    | finished owner t =>
      simp only [QueueOutput.seen,System.endOf] at seen
      split at seen <;> simp at seen
    | _ => simp [QueueOutput.seen] at seen
  rcases @stepTends config s valid e with turn | ⟨_,turns⟩
  · exact tendedCurrent current turn quiet
  · exact (Trace.keeps (P := fun out q => out = [] → Current past q) (fun out q out' q' held turn silent => by
      obtain ⟨rfl,rfl⟩ := List.append_eq_nil_iff.mp silent
      exact tendedCurrent (held rfl) turn (by simp)) turns [] (fun _ => current)) rfl

theorem currentEnqueue (valid : s.Valid) (current : Current past s.queue) (p : Process) (purge : Purge) (o : Outcome)
    (pid : Pid) : Current (past ++ (enqueueStep config p purge o s).2.filterMap
      (QueueOutput.given config s (.enqueue pid purge o))) (enqueueStep config p purge o s).1.queue := by
  rcases @enqueueCells config s valid.queue.toCatalog p purge o with
    ⟨said,same⟩ | ⟨a,t,said,⟨item,here,mine,items⟩ | ⟨_,unique,items⟩⟩
  · rw [said,same]
    simpa using current
  · obtain ⟨wanted,identity,idle⟩ := renewWanted purge (current t item here).idle
    rw [said]
    refine currentAccepted current _ purge.protection items (fun u other there apart same => ?_) ⟨?_,idle⟩
    · exact apart (loneIdentity valid.queue.toCatalog here u other there (same.trans mine.symm))
    · rw [wanted,identity,mine]
      exact newestNow (by simp [Given.request])
  · rw [said]
    refine currentAccepted current _ purge.protection items (fun u other there _ => unique u other there)
      ⟨?_,fun _ => rfl⟩
    exact newestNow (by simp [Given.request,Purge.item,Item.identity,Item.wanted,Item.zeroed])

def Carried (s s' : System) : Prop := ∀ p' ∈ s'.procs, ∀ t, p'.work.item = some t →
  ∃ p ∈ s.procs, p.pid = p'.pid ∧ p.work.item = some t ∧ p.work.protection = p'.work.protection

theorem carriedSame {s' : System} (same : s'.procs = s.procs) : Carried s s' :=
  fun p' member _ holds => ⟨p',same ▸ member,rfl,holds,rfl⟩

theorem carriedRevise {s' : System} (same : s'.procs = s.procs) (valid : s.Valid) {p : Process} (member : p ∈ s.procs)
    {f : Process → Process} (pid : (f p).pid = p.pid) (held : ∀ t, (f p).work.item = some t →
      p.work.item = some t ∧ p.work.protection = (f p).work.protection) : Carried s (s'.revise p.pid f) := by
  intro p' inside t holds
  rw [System.revise,same] at inside
  rcases reviseMember valid.pids member inside with rfl | ⟨there,_⟩
  · obtain ⟨before,kept⟩ := held t holds
    exact ⟨p,member,pid.symm,before,kept⟩
  · exact ⟨p',there,rfl,holds,rfl⟩

theorem finishWork (slot : Slot) (final : Bool) (now : UInt64) (locked : Bool) (q : Queue) (w : Work) :
    (finishTask slot final now locked q w).2.2 = w ∨ (finishTask slot final now locked q w).2.2 = w.emptied := by
  unfold finishTask
  split
  · exact .inl rfl
  · split
    · exact .inl rfl
    · split
      · exact .inl rfl
      · exact .inr rfl

theorem finishCarried (valid : s.Valid) {p : Process} (member : p ∈ s.procs) (now : UInt64) (locked : Bool) :
    Carried s (finishStep p now locked s).1 := by
  unfold finishStep
  split
  · exact carriedSame rfl
  · split
    · refine carriedRevise rfl valid member rfl fun t held => ?_
      simp only at held ⊢
      rcases finishWork p.slot false now locked s.queue p.work with same | emptied
      · rw [same] at held ⊢
        exact ⟨held,rfl⟩
      · rw [emptied] at held
        contradiction
    · exact carriedSame rfl

theorem exitCarried (valid : s.Valid) {p : Process} (member : p ∈ s.procs) (now closed : UInt64) :
    Carried s (exitStep p now closed s).1 := by
  refine carriedRevise rfl valid member rfl fun t held => ?_
  simp only [exitWorker] at held ⊢
  split at held
  · rename_i busy
    rw [if_pos busy]
    exact ⟨held,rfl⟩
  · rename_i free
    rw [if_neg free]
    simp only at held ⊢
    split at held
    · rename_i holding
      rw [if_pos holding]
      rcases finishWork p.slot true now true s.queue (p.work.closing closed) with same | emptied
      · rw [same] at held ⊢
        exact ⟨held,rfl⟩
      · rw [emptied] at held
        contradiction
    · rename_i empty
      rw [if_neg empty]
      exact ⟨held,rfl⟩

theorem walkEndPlain (s : System) (p : Process) : ∀ o ∈ s.walkEnd p, o.plain = true := by
  unfold System.walkEnd
  split
  · simp
  · rename_i t _
    cases s.identity t <;> simp [QueueOutput.plain]

theorem processPlain (valid : s.Valid) {p : Process} {pid : Pid} (found : s.find pid = some p) (e : WorkerEvent)
    (mine : e.pid = pid) (asks : ∀ purge o, e ≠ .enqueue pid purge o)
    (takes : ∀ now locked poolFound, e ≠ .take pid now locked poolFound) :
    (∀ o ∈ (processStep config p s e).2, o.plain = true) ∧ Carried s (processStep config p s e).1 := by
  obtain ⟨member,here⟩ := findMember found
  subst here
  have same : (∀ o ∈ ([] : List QueueOutput), o.plain = true) ∧ Carried s s := ⟨by simp,carriedSame rfl⟩
  have worked (w : Work) (item : w.item = p.work.item) (protection : w.protection = p.work.protection) :
      Carried s (s.setWork p.pid w) :=
    carriedRevise rfl valid member rfl fun t held => ⟨item.symm.trans held,protection.symm⟩
  cases e with
  | start _ _ _ => exact same
  | gone _ => exact same
  | thread _ _ => exact same
  | enqueue _ purge o => exact absurd (by rw [← mine]; rfl) (asks purge o)
  | take _ now locked poolFound => exact absurd (by rw [← mine]; rfl) (takes now locked poolFound)
  | leave pid =>
    cases mine
    exact ⟨by simp [processStep],carriedRevise rfl valid member rfl fun t held => ⟨held,rfl⟩⟩
  | recover _ now locked claims =>
    refine ⟨fun o inside => ?_,carriedSame rfl⟩
    obtain ⟨_,_,rfl⟩ := List.mem_map.mp inside
    rfl
  | post pid posted =>
    cases mine
    simp only [processStep]
    split
    · refine ⟨by simp,worked _ ?_ ?_⟩ <;>
      · unfold postTask
        dsimp only
        split <;> rfl
    · exact same
  | notify pid =>
    cases mine
    simp only [processStep]
    split
    · exact ⟨by simp,worked _ rfl rfl⟩
    · exact same
  | slice pid again counters =>
    cases mine
    simp only [processStep]
    split
    · refine ⟨?_,worked _ rfl rfl⟩
      cases again with
      | true => simp
      | false => exact walkEndPlain s p
    · exact same
  | finish pid now locked =>
    refine ⟨?_,finishCarried valid member now locked⟩
    simp only [processStep,finishStep]
    split
    · simp
    · split
      · dsimp only
        split <;> simp [QueueOutput.plain]
      · simp
  | exit pid now closed =>
    refine ⟨?_,exitCarried valid member now closed⟩
    simp only [processStep,exitStep]
    split
    · simp
    · split <;> simp [QueueOutput.plain]

theorem stepPlain (valid : s.Valid) (e : WorkerEvent) (asks : ∀ pid purge o, e ≠ .enqueue pid purge o)
    (takes : ∀ pid now locked poolFound, e ≠ .take pid now locked poolFound) :
    (∀ o ∈ (s.step config e).2, o.plain = true) ∧ Carried s (s.step config e).1 := by
  have ways := stepCases config s e
  generalize s.step config e = out at ways ⊢
  cases ways with
  | idle => exact ⟨by simp,carriedSame rfl⟩
  | started named pids slots init =>
    refine ⟨by simp,fun p' inside t holds => ?_⟩
    rcases List.mem_append.mp inside with before | new
    · exact ⟨p',before,rfl,holds,rfl⟩
    · rw [List.mem_singleton.mp new] at holds
      simp [Work.idle] at holds
  | gone =>
    refine ⟨by simp,fun p' inside t holds => ?_⟩
    exact ⟨p',(List.mem_filter.mp inside).1,rfl,holds,rfl⟩
  | @threaded pid counters p found =>
    obtain ⟨member,rfl⟩ := findMember found
    exact ⟨walkEndPlain s p,carriedRevise rfl valid member rfl fun t held => ⟨held,rfl⟩⟩
  | processed found running => exact processPlain valid found e rfl (asks e.pid) (takes e.pid)

theorem takeGiven (valid : s.Valid) {p : Process} (member : p ∈ s.procs) (now : UInt64) (locked poolFound : Bool) :
    ((takeStep config p now locked poolFound s).2 = [] ∧ Carried s (takeStep config p now locked poolFound s).1) ∨
    ∃ t item w q', s.queue.items t = some item ∧ item.running = false ∧ w.item = some t ∧
      w.protection = item.protection ∧
      (takeStep config p now locked poolFound s).2 = [.started (s.owner p) t item.identity] ∧
      (takeStep config p now locked poolFound s).1 = ({s with queue := q'} : System).setWork p.pid w := by
  unfold takeStep
  split
  · exact .inl ⟨rfl,carriedSame rfl⟩
  · rename_i idle
    have empty : p.work.item = none := by simpa using idle
    rcases @takeOutcome p.slot now config.names p.namespaces p.pid s.queue p.work p.leaving locked
      poolFound with ⟨work,_,_⟩ | ⟨t,item,here,waiting,work,_,_⟩
    · dsimp only
      rw [work,empty]
      exact .inl ⟨rfl,carriedRevise rfl valid member rfl fun t held => ⟨held,rfl⟩⟩
    · dsimp only
      rw [work,beginHolds]
      refine .inr ⟨t,item,_,_,here,?_,beginHolds,beginFields.2.2.1,?_,rfl⟩
      · by_contra running
        have active := (valid.queue.flags t item here).mp (by simpa using running)
        exact activeNotPending valid.queue active waiting
      · simp [System.identity,here]

theorem processSteps {e : WorkerEvent} (lasting : (∃ pid purge o, e = .enqueue pid purge o) ∨
    ∃ pid now locked poolFound, e = .take pid now locked poolFound) : s.step config e = (s,[]) ∨
    ∃ p, s.find e.pid = some p ∧ s.step config e = processStep config p s e := by
  have steps : s.step config e =
      (s.find e.pid).elim (s,[]) fun p => if p.exited then (s,[]) else processStep config p s e := by
    rcases lasting with ⟨pid,_,_,rfl⟩ | ⟨pid,_,_,_,rfl⟩ <;>
      (simp only [System.step,WorkerEvent.pid]; cases s.find pid <;> rfl)
  rw [steps]
  cases found : s.find e.pid with
  | none => exact .inl rfl
  | some p =>
    cases exited : p.exited with
    | true => exact .inl (by simp [exited])
    | false => exact .inr ⟨p,rfl,by simp [exited]⟩

theorem enqueueSaid {p : Process} {purge : Purge} {o : Outcome} :
    ∀ said ∈ (enqueueStep config p purge o s).2, ∃ identity, said = .accepted identity := by
  intro said member
  simp only [enqueueStep] at member
  split at member
  · obtain ⟨a,_,rfl⟩ := Option.map_eq_some_iff.mp (Option.mem_toList.mp member)
    exact ⟨_,rfl⟩
  · contradiction

theorem guardedPlain (guarded : Guarded past s) {e : WorkerEvent} (plain : ∀ o ∈ (s.step config e).2, o.plain = true)
    (carried : Carried s (s.step config e).1) :
    Guarded (past ++ givenOf config s e) (s.step config e).1 ∧ Witnessed Fresh past (givenOf config s e) := by
  rw [givenPlain plain,List.append_nil]
  refine ⟨⟨stepKeepsValid guarded.valid e,currentPlain guarded.valid guarded.tasks plain,fun p' member t holds => ?_⟩,
    witnessedNil past⟩
  obtain ⟨p,there,pid,before,protection⟩ := carried p' member t holds
  rw [← pid,← protection]
  exact guarded.passes p there t before

theorem guardedEnqueue (guarded : Guarded past s) {p : Process} {pid : Pid} {purge : Purge} {o : Outcome}
    (step : s.step config (.enqueue pid purge o) = enqueueStep config p purge o s) :
    Guarded (past ++ givenOf config s (.enqueue pid purge o)) (s.step config (.enqueue pid purge o)).1 ∧
      Witnessed Fresh past (givenOf config s (.enqueue pid purge o)) := by
  have asked (g : Given) (member : g ∈ givenOf config s (.enqueue pid purge o)) :
      ∃ identity protection, g = .accepted identity protection := by
    obtain ⟨said,inside,given⟩ := List.mem_filterMap.mp member
    rw [step] at inside
    obtain ⟨identity,rfl⟩ := enqueueSaid said inside
    exact ⟨identity,purge.protection,(Option.some.inj given).symm⟩
  refine ⟨⟨stepKeepsValid guarded.valid _,?_,fun p' member t holds => ?_⟩,fun front g back split_ => ?_⟩
  · have tasks := @currentEnqueue config past s guarded.valid guarded.tasks p purge o pid
    rw [← step] at tasks
    exact tasks
  · rw [step] at member
    rw [newestQuiet]
    · exact guarded.passes p' member t holds
    · intro g inside
      obtain ⟨_,_,rfl⟩ := asked g inside
      rfl
  · obtain ⟨_,_,rfl⟩ := asked g (by rw [split_]; simp)
    trivial

theorem guardedTake (guarded : Guarded past s) {p : Process} {pid : Pid} (found : s.find pid = some p) {now : UInt64}
    {locked poolFound : Bool}
    (step : s.step config (.take pid now locked poolFound) = takeStep config p now locked poolFound s) :
    Guarded (past ++ givenOf config s (.take pid now locked poolFound)) (s.step config (.take pid now locked poolFound)).1 ∧
      Witnessed Fresh past (givenOf config s (.take pid now locked poolFound)) := by
  obtain ⟨member,here⟩ := findMember found
  subst here
  have next := @stepKeepsValid config s guarded.valid (.take p.pid now locked poolFound)
  have turn := @takeTends config s p now locked poolFound (.take p.pid now locked poolFound)
  rcases @takeGiven config s guarded.valid p member now locked poolFound with
    ⟨silent,carried⟩ | ⟨t,item,w,q',here,waits,holds,protection,said,state⟩
  · exact guardedPlain guarded (by rw [step,silent]; simp) (by rw [step]; exact carried)
  · rw [said] at turn
    have mine : (s.step config (.take p.pid now locked poolFound)).1.find p.pid = some {p with work := w} := by
      rw [step,state]
      exact setWorkSelf (s := {s with queue := q'}) found w
    have given : givenOf config s (.take p.pid now locked poolFound) = [.begun p.pid t item.identity item.protection] := by
      rw [givenOf,step,said]
      simp only [List.filterMap_cons,List.filterMap_nil,QueueOutput.given,System.owner,mine,Option.map_some,protection]
    have current := guarded.tasks t item here
    have wanted : item.wanted = item.protection := by rw [Item.wanted,current.idle waits]; rfl
    rw [given]
    refine ⟨⟨next,fun u other there => ?_,fun p' inside u held => ?_⟩,witnessedSingle ?_⟩
    · rw [step] at there
      have kept := tendedCurrent guarded.tasks turn (by simp [QueueOutput.seen]) u other there
      refine ⟨?_,kept.idle⟩
      rw [newestQuiet (by simp [Given.request])]
      exact kept.newest
    · rw [step,state] at inside
      rcases reviseMember guarded.valid.pids member inside with rfl | ⟨there,apart⟩
      · have same : u = t := Option.some.inj (held.symm.trans holds)
        rw [same,← protection]
        exact newestNow (by simp [Given.pass])
      · rw [newestQuiet (by simp [Given.pass,Ne.symm apart])]
        exact guarded.passes p' there u held
    · rw [← wanted]
      exact current.newest

theorem guardedStep (guarded : Guarded past s) (e : WorkerEvent) :
    Guarded (past ++ givenOf config s e) (s.step config e).1 ∧ Witnessed Fresh past (givenOf config s e) := by
  have still (step : s.step config e = (s,[])) :
      Guarded (past ++ givenOf config s e) (s.step config e).1 ∧ Witnessed Fresh past (givenOf config s e) :=
    guardedPlain guarded (by simp [step]) (by rw [step]; exact carriedSame rfl)
  have others (asks : ∀ pid purge o, e ≠ .enqueue pid purge o)
      (takes : ∀ pid now locked poolFound, e ≠ .take pid now locked poolFound) :
      Guarded (past ++ givenOf config s e) (s.step config e).1 ∧ Witnessed Fresh past (givenOf config s e) := by
    obtain ⟨plain,carried⟩ := @stepPlain config s guarded.valid e asks takes
    exact guardedPlain guarded plain carried
  cases e with
  | enqueue pid purge o =>
    rcases processSteps (.inl ⟨pid,purge,o,rfl⟩) with nothing | ⟨p,_,step⟩
    · exact still nothing
    · exact guardedEnqueue guarded step
  | take pid now locked poolFound =>
    rcases processSteps (.inr ⟨pid,now,locked,poolFound,rfl⟩) with nothing | ⟨p,found,step⟩
    · exact still nothing
    · exact guardedTake guarded found step
  | _ => exact others (by simp) (by simp)

end steps

/- In every run of any workers: a pass starts with the protection of the newest accepted
request of its task, whichever process took that request, and the process that has the
pass in hand has the protection it started with. -/
theorem newestProtection (config : Config) (maxSize : Nat) (paths : List (Nat × Bytes)) (epochs : Nat → Epoch)
    (events : List WorkerEvent) :
    let given := (protectionMachine config).outputs (systemInit maxSize paths epochs) events
    let s := (systemMachine config).after (systemInit maxSize paths epochs) events
    (∀ front pid t identity protection back, given = front ++ .begun pid t identity protection :: back →
      newest (Given.request identity) front = some protection) ∧
    ∀ p ∈ s.procs, ∀ t, p.work.item = some t → newest (Given.pass p.pid) given = some (t,p.work.protection) := by
  intro given s
  have start : Guarded [] (systemInit maxSize paths epochs) :=
    ⟨initSystemValid maxSize paths epochs,fun t item here => by simp [systemInit,queueInit] at here,by simp [systemInit]⟩
  have fresh : Witnessed Fresh [] given :=
    (protectionMachine config).witnessed (P := Guarded) start (fun _ _ e guarded => guardedStep guarded e) events
  have tracked : Guarded given s := by
    have kept := (protectionMachine config).tracks (P := Guarded) start
      (fun _ _ e guarded => (guardedStep guarded e).1) events
    rwa [protectionMachine,Machine.watchAfter] at kept
  exact ⟨fun front pid t identity protection back split_ => fresh front _ back split_,tracked.passes⟩

end CachePurge
