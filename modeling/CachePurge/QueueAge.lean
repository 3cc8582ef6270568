import CachePurge.QueueRetries
import CachePurge.QueueStatus

/-! The age that the status reports. The zone keeps one time, oldest: it is set when
a task joins an empty list, and again from the new head when a task is started; the
rotation of delayed tasks and a task that joins others leave it alone. It is always
the time at which a task joined that is waiting now. -/
namespace CachePurge
open General

def Queue.Aged (q : Queue) : Prop := q.pending ≠ [] → ∃ t ∈ q.pending, q.enqueuedAt t = q.oldest

/- What a section does to the waiting tasks and to the time that is kept. -/
inductive Aging (q : Queue) : Queue → Prop where
  | kept {q'} (pending : q'.pending.Perm q.pending)
      (times : ∀ u ∈ q.pending, q'.enqueuedAt u = q.enqueuedAt u) (oldest : q'.oldest = q.oldest) : Aging q q'
  | joined {q' t} (pending : q'.pending = q.pending ++ [t])
      (times : ∀ u ∈ q.pending, q'.enqueuedAt u = q.enqueuedAt u)
      (oldest : q'.oldest = if q.pending.isEmpty then q'.enqueuedAt t else q.oldest) : Aging q q'
  | left {q'} (oldest : ∀ head rest, q'.pending = head :: rest → q'.oldest = q'.enqueuedAt head) : Aging q q'

theorem agingAged {q q' : Queue} (aged : q.Aged) (aging : Aging q q') : q'.Aged := by
  intro waiting
  cases aging with
  | kept pending times oldest =>
    have before : q.pending ≠ [] := by
      intro none_
      rw [none_] at pending
      exact waiting (List.perm_nil.mp pending)
    obtain ⟨t,member,time⟩ := aged before
    exact ⟨t,pending.mem_iff.mpr member,by rw [times t member,time,oldest]⟩
  | @joined t pending times oldest =>
    cases empty : q.pending.isEmpty with
    | true =>
      rw [empty] at oldest
      exact ⟨t,by simp [pending],oldest.symm⟩
    | false =>
      rw [empty] at oldest
      obtain ⟨u,member,time⟩ := aged (by simpa using empty)
      exact ⟨u,by simp [pending,member],by rw [times u member,time]; exact oldest.symm⟩
  | left oldest =>
    cases listed : q'.pending with
    | nil => exact absurd listed waiting
    | cons head rest => exact ⟨head,List.mem_cons_self,(oldest head rest listed).symm⟩

section times
variable {q q' : Queue} {t : TaskId} {item item' : Item}

theorem timeHere (here : q.items t = some item) : q.enqueuedAt t = item.enqueuedAt := by
  simp [Queue.enqueuedAt,here]

theorem timesApart {cell : Option Item} (items : q'.items = Function.update q.items t cell)
    (apart : t ∉ q.pending) : ∀ u ∈ q.pending, q'.enqueuedAt u = q.enqueuedAt u := by
  intro u member
  have other : u ≠ t := by
    rintro rfl
    exact apart member
  rw [Queue.enqueuedAt,items,Function.update_of_ne other]
  rfl

theorem timesSame (here : q.items t = some item) (items : q'.items = Function.update q.items t (some item'))
    (same : item'.enqueuedAt = item.enqueuedAt) (tasks : List TaskId) :
    ∀ u ∈ tasks, q'.enqueuedAt u = q.enqueuedAt u := by
  intro u _
  rcases eq_or_ne u t with rfl | other
  · simp [Queue.enqueuedAt,items,here,same]
  · rw [Queue.enqueuedAt,items,Function.update_of_ne other]
    rfl

theorem renewTime (p : Purge) (item : Item) : (p.renew item).enqueuedAt = item.enqueuedAt := by
  unfold Purge.renew
  cases item.running <;> rfl

theorem requeueTime (now : UInt64) (item : Item) : (item.requeue now).enqueuedAt = now := rfl

theorem freshApart (valid : q.Valid) (fresh : q.items t = none) : t ∉ q.pending := by
  intro waits
  have listed := (valid.cells t).mpr (.inl waits)
  rw [fresh] at listed
  contradiction

end times

section sections
variable {slot : Option Slot} {q : Queue} {t : TaskId} {item : Item}

theorem renewAges {p : Purge} {a : Nat} (here : q.items t = some item) : Aging q (renewTask slot p a t q) := by
  have oldest : (renewTask slot p a t q).oldest = q.oldest := by
    simp only [renewTask]
    split <;> simp [Queue.modify]
  cases @renewChange slot p q a t item here with
  | renew _ there pending _ _ _ items _ =>
    exact .kept (by rw [pending]) (timesSame there items (renewTime p _) q.pending) oldest

theorem admitAges {names : Nat → Name} {p : Purge} {a : Nat} (valid : q.Valid) (fresh : q.items t = none) :
    Aging q (admitTask names slot p a t (q.put t .zeroed)) := by
  have items : (admitTask names slot p a t (q.put t .zeroed)).items =
      Function.update q.items t (some (p.item names a)) := by
    simp only [admitTask]
    split <;> simp [Queue.put,Queue.modifyPath]
  have oldest : (admitTask names slot p a t (q.put t .zeroed)).oldest =
      if q.pending.isEmpty then p.now else q.oldest := by
    simp only [admitTask]
    split <;> simp [Queue.put,Queue.modifyPath,Queue.pushPending,Queue.enqueuedAt,Purge.item]
  have pending : (admitTask names slot p a t (q.put t .zeroed)).pending = q.pending ++ [t] := by
    simp only [admitTask]
    split <;> simp [Queue.put,Queue.modifyPath]
  refine .joined pending (timesApart items (freshApart valid fresh)) ?_
  rw [oldest,Queue.enqueuedAt,items,Function.update_self]
  rfl

theorem enqueueAges {platform : Platform} {names : Nat → Name} {exiting : Bool} {p : Purge} {o : Outcome}
    {zones : Nat → Zone} (valid : q.Valid) : Aging q (enqueue platform names slot exiting p o q zones).2.1 := by
  have ways := @enqueueCases platform names slot p o q zones exiting
  generalize enqueue platform names slot exiting p o q zones = out at ways ⊢
  cases ways with
  | refused other declined => exact .kept (.refl _) (fun _ _ => rfl) rfl
  | renewed found indexed published =>
    obtain ⟨_,item,here,_⟩ := lookupFound indexed
    exact renewAges here
  | admitted found absent room fresh published => exact admitAges valid fresh

theorem requeueAges {q' : Queue} {now : UInt64} (valid : q.Valid) (held : t ∈ q.active)
    (items : q'.items = Function.update q.items t (some item)) (time : item.enqueuedAt = now)
    (pending : q'.pending = q.pending ++ [t])
    (oldest : q'.oldest = if q.pending.isEmpty then now else q.oldest) : Aging q q' := by
  refine .joined pending (timesApart items (activeNotPending valid held)) ?_
  rw [oldest,Queue.enqueuedAt,items,Function.update_self]
  simp [time]

theorem recoverOneAges {alive : Pid → Bool} {now : UInt64} (valid : q.Valid) :
    Aging q (recoverOne slot alive now q).1 := by
  have same : Aging q q := .kept (.refl _) (fun _ _ => rfl) rfl
  unfold recoverOne
  split
  · exact same
  · rename_i t rest listed
    split
    · exact same
    · rename_i item here
      split
      · exact .kept (.refl _) (fun _ _ => rfl) rfl
      · refine @requeueAges q t (item.requeue now) _ now valid (by simp [listed]) ?_ (requeueTime now item) ?_ ?_
        · simp [Queue.modify,here]
        · simp [Queue.modify]
        · simp [Queue.modify,Queue.pushPending,Queue.enqueuedAt,here,requeueTime]

theorem startTaskAges {pid : Pid} {slot : Slot} {rest : List TaskId} : Aging q (startTask pid slot t item rest q) := by
  refine .left fun head tail listed => ?_
  rw [startTaskPending] at listed
  subst listed
  simp [startTask,Queue.modify,Queue.enqueuedAt]

theorem takeTaskAges {names : Nat → Name} {namespaces : List Nat} {pid : Pid} {slot : Slot}
    {leaving locked poolFound : Bool} {now : UInt64} {w : Work} :
    Aging q (takeTask names namespaces pid slot leaving now locked poolFound q w).2.1 := by
  have ways := @takeCases slot now names namespaces pid q w leaving locked poolFound
  generalize takeTask names namespaces pid slot leaving now locked poolFound q w = taken at ways ⊢
  cases ways with
  | idle code => exact .kept (.refl _) (fun _ _ => rfl) rfl
  | turned selected =>
    have perm := selectReadyPerm q.items now (min q.size walkEntries) q.pending
    rw [selected] at perm
    exact .kept perm.symm (fun _ _ => rfl) rfl
  | started staying selected here => exact startTaskAges

theorem settleTaskTimes {slot : Slot} {now : UInt64} {w : Work} :
    (settleTask slot now t item w q).2.oldest = q.oldest := by
  have ways := @settleCases slot now t item q w
  generalize settleTask slot now t item w q = settled at ways ⊢
  cases ways with
  | again | done => rfl
  | retried => simp [Queue.modify]
  | exhausted => simp

theorem endTaskAges {slot : Slot} {now : UInt64} {w : Work} (valid : q.Valid) (held : t ∈ q.active)
    (here : q.items t = some item) : Aging q (endTask slot now t item w q) := by
  have settled := (@settleTaskSpec slot now t item q w here).1
  obtain ⟨retries,at_,items⟩ := settled.items
  cases again : (settleTask slot now t item w q).1 with
  | true =>
    refine @requeueAges q t (({item with retries := retries, retryAt := at_} : Item).requeue now) _ now valid held
      ?_ (requeueTime now _) ?_ ?_
    · simp [endTask,again,Queue.modify,items]
    · simp [endTask,again,Queue.modify,settled.pending]
    · simp [endTask,again,Queue.modify,Queue.pushPending,Queue.enqueuedAt,items,requeueTime,settled.pending,
        settleTaskTimes]
  | false =>
    have retired : (endTask slot now t item w q).items = Function.update q.items t none := by
      simp [endTask,again,Queue.modifyPath,Queue.free,items]
    refine .kept ?_ (timesApart retired (activeNotPending valid held)) ?_
    · simp [endTask,again,Queue.modifyPath,Queue.free,settled.pending]
    · simp [endTask,again,Queue.modifyPath,Queue.free,settleTaskTimes]

theorem initWorkerAges {current : Option Slot} {pid : Pid} {slot : Slot} {q' : Queue}
    (init : initWorker current pid slot q = some q') : Aging q q' := by
  obtain ⟨pending,_,_,_,_,_,items,_⟩ := initWorkerSpec init
  have cleared (f : QueuePath → QueuePath) (paths : List Nat) (q : Queue) :
      (paths.foldl (fun q a => q.modifyPath a f) q).oldest = q.oldest := by
    induction paths generalizing q with
    | nil => rfl
    | cons a rest ih => exact ih (q.modifyPath a f)
  refine .kept (by rw [pending]) (fun u _ => by rw [Queue.enqueuedAt,items]; rfl) ?_
  unfold initWorker at init
  split at init
  · contradiction
  · dsimp only at init
    split at init
    · contradiction
    · cases Option.some.inj init
      exact cleared _ _ _

end sections

section runs
variable {config : Config} {s : System}

theorem finishStepAges (valid : s.Valid) {p : Process} (member : p ∈ s.procs) {now : UInt64} {locked : Bool} :
    Aging s.queue (finishStep p now locked s).1.queue := by
  have same : Aging s.queue s.queue := .kept (.refl _) (fun _ _ => rfl) rfl
  unfold finishStep
  split
  · exact same
  · rename_i t holds
    obtain ⟨held,_,item,here,_⟩ := valid.holding p member t holds
    split
    · cases locked with
      | false => simpa [finishTask,holds] using same
      | true => simpa [finishTask,holds,here] using endTaskAges valid.queue held here
    · exact same

theorem exitStepAges (valid : s.Valid) {p : Process} (member : p ∈ s.procs) {now closed : UInt64} :
    Aging s.queue (exitStep p now closed s).1.queue := by
  have same : Aging s.queue s.queue := .kept (.refl _) (fun _ _ => rfl) rfl
  -- The registration is apart from the list and the time.
  have deregistered {q : Queue} (aging : Aging s.queue q) : Aging s.queue (deregister p.slot q) := by
    cases aging with
    | kept pending times oldest => exact .kept pending times oldest
    | joined pending times oldest => exact .joined pending times oldest
    | left oldest => exact .left oldest
  simp only [exitStep,reviseQueue]
  rcases Bool.eq_false_or_eq_true (p.work.active && !p.work.finished) with busy | free
  · rw [exitBusy busy]
    exact same
  · cases holds : p.work.item with
    | none =>
      rw [exitEmpty free holds]
      exact deregistered same
    | some t =>
      obtain ⟨held,_,item,here,_⟩ := valid.holding p member t holds
      rw [exitHolding free holds here]
      exact deregistered (endTaskAges valid.queue held here)

theorem recoverStepAged (valid : s.Valid) (aged : s.queue.Aged) {p : Process} {now : UInt64} {locked : Bool}
    {claims : Pid → Bool} : (recoverStep p now locked claims s).1.queue.Aged :=
  (@recoverInvariant (some p.slot) (s.alive claims) now (fun _ q => q.Valid ∧ q.Aged)
    (fun _ q kept => by
      have next := agingAged kept.2 (@recoverOneAges (some p.slot) q (s.alive claims) now kept.1)
      rcases @recoverOneChange (some p.slot) (s.alive claims) now q with ⟨_,change,_⟩ | ⟨_,_,_,_,_,_,change,_⟩
      · exact ⟨changeValid kept.1 change,next⟩
      · exact ⟨changeValid kept.1 change,next⟩) [] s.queue ⟨valid.queue,aged⟩ locked).2

theorem processStepAged (valid : s.Valid) (aged : s.queue.Aged) {p : Process} (member : p ∈ s.procs)
    (e : WorkerEvent) : (processStep config p s e).1.queue.Aged := by
  cases e with
  | enqueue _ purge o => exact agingAged aged (enqueueAges valid.queue)
  | recover _ now locked claims => exact recoverStepAged valid aged
  | take _ now locked poolFound =>
    simp only [processStep,takeStep]
    split
    · exact aged
    · exact agingAged aged takeTaskAges
  | finish _ now locked => exact agingAged aged (finishStepAges valid member)
  | exit _ now closed => exact agingAged aged (exitStepAges valid member)
  | start | leave | thread | gone => exact aged
  | post | notify | slice =>
    simp only [processStep]
    split <;> exact aged

theorem stepAged (valid : s.Valid) (aged : s.queue.Aged) (e : WorkerEvent) :
    (s.step config e).1.queue.Aged := by
  have ways := stepCases config s e
  generalize s.step config e = out at ways ⊢
  cases ways with
  | started named pids slots init => exact agingAged aged (initWorkerAges init)
  | idle | gone | threaded => exact aged
  | processed found running => exact processStepAged valid aged (findMember found).1 e

end runs

/- The time that is kept is that of a waiting task, which no worker holds, and the
reported age is its age; with no task waiting none is reported. -/
theorem oldestWaits (config : Config) (maxSize : Nat) (paths : List (Nat × Bytes)) (epochs : Nat → Epoch)
    (events : List WorkerEvent) :
    let q := ((systemMachine config).after (systemInit maxSize paths epochs) events).queue
    (q.pending ≠ [] → ∃ t item, t ∈ q.pending ∧ t ∉ q.active ∧ q.items t = some item ∧ item.running = false ∧
      item.enqueuedAt = q.oldest ∧
      ∀ now path, (queueStatusSnapshot now path q).waitTime = age now item.enqueuedAt) ∧
    (q.pending = [] → ∀ now path, (queueStatusSnapshot now path q).waitTime = 0) := by
  intro q
  have both := (systemMachine config).invariant (P := fun s : System => s.Valid ∧ s.queue.Aged)
    (fun s e kept => ⟨stepKeepsValid kept.1 e,stepAged kept.1 kept.2 e⟩)
    ⟨initSystemValid maxSize paths epochs,fun waiting => absurd rfl waiting⟩ events
  have valid : q.Valid := both.1.queue
  have aged : q.Aged := both.2
  refine ⟨fun waiting => ?_,fun none_ now path => ?_⟩
  · obtain ⟨t,member,time⟩ := aged waiting
    obtain ⟨item,here⟩ := listedCell valid (.inl member)
    have apart : t ∉ q.active := fun held => activeNotPending valid held member
    have some_ : q.size ≠ 0 := by
      rw [valid.size]
      exact fun empty => waiting (List.length_eq_zero_iff.mp empty)
    rw [timeHere here] at time
    refine ⟨t,item,member,apart,here,?_,time,fun now path => ?_⟩
    · rw [← Bool.not_eq_true,valid.flags t item here]
      exact apart
    · rw [time]
      exact if_pos some_
  · have zero : q.size = 0 := by rw [valid.size,none_]; rfl
    simp [queueStatusSnapshot,zero]

/- Two keys are asked for and the older task is started: the kept time is the newer's. -/
def twoAsked : List WorkerEvent :=
  [.start 7 0 false [],.enqueue 7 {retryPurge with now := 5} ⟨true,true,some 5,[]⟩,
    .enqueue 7 {retryPurge with key := [47,98], now := 9} ⟨true,true,some 6,[]⟩,.take 7 1000 true false]

theorem oldestWaitsTwo :
    let q := ((systemMachine retryConfig).after retryInit twoAsked).queue
    q.oldest = 9 ∧ ∃ t item, t ∈ q.pending ∧ t ∉ q.active ∧ q.items t = some item ∧ item.running = false ∧
      item.enqueuedAt = q.oldest ∧
      ∀ now path, (queueStatusSnapshot now path q).waitTime = age now item.enqueuedAt :=
  ⟨by decide +kernel,(oldestWaits retryConfig 4 [(1,[47,99])] (fun _ => siteEpoch) twoAsked).1 (by decide +kernel)⟩

end CachePurge
