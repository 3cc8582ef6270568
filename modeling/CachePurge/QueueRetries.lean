import CachePurge.QueueRotation
import CachePurge.WorkerSteps

/-! The retries of a task, as every section of the workers leaves them. A pass that
ends with errors is repeated after a delay, three times at most since the last
accepted request; a pass that was asked for again, or handed back unfinished, is
repeated at once and starts afresh, and one that was lost changes nothing. -/
namespace CachePurge
open General

def Queue.exhausted (q : Queue) (a : Nat) (i : Slot) : UInt64 := (q.path a).stats i .exhausted

def Work.failed (w : Work) : Bool := w.counters.scanErrors != 0 || w.counters.deleteErrors != 0

def Item.settled (now : UInt64) (w : Work) (item : Item) : Option Item :=
  if item.rerun || !w.complete then some (({item with retries := 0, retryAt := 0} : Item).requeue now)
  else if w.failed && item.retries < 3 then
    some (({item with retryAt := now + retryDelay item.retries, retries := item.retries + 1} : Item).requeue now)
  else none

def Item.spent (w : Work) (item : Item) : Bool := !item.rerun && w.complete && w.failed && 3 ≤ item.retries

section fields
variable (slot : Option Slot) (a : Nat) (value : UInt64) (t : TaskId) (q : Queue)

@[simp] theorem statAddExhausted {field : Metric} (other : field ≠ .exhausted) :
    (q.statAdd slot a field value).exhausted = q.exhausted := by
  cases slot with
  | none => rfl
  | some slot =>
    funext b i
    simp only [Queue.statAdd,Queue.modifyPath,Queue.exhausted]
    rcases eq_or_ne b a with rfl | apart
    · rcases eq_or_ne i slot with rfl | away
      · simp [Ne.symm other]
      · simp [away]
    · simp [apart]

theorem statAddSpent (slot : Slot) (b : Nat) (i : Slot) :
    (q.statAdd (some slot) a .exhausted value).exhausted b i = if b = a ∧ i = slot
      then q.exhausted a slot + min value (0xFFFFFFFFFFFFFFFF - q.exhausted a slot) else q.exhausted b i := by
  simp only [Queue.statAdd,Queue.modifyPath,Queue.exhausted]
  rcases eq_or_ne b a with rfl | apart
  · rcases eq_or_ne i slot with rfl | away
    · simp
    · simp [away]
  · simp [apart]

theorem fieldsExhausted (pending active : List TaskId) (size running : Nat) (oldest : UInt64)
    (items : TaskId → Option Item) : ({q with
      pending := pending
      active := active
      size := size
      running := running
      oldest := oldest
      items := items} : Queue).exhausted = q.exhausted := rfl

@[simp] theorem freeExhausted : (q.free t).exhausted = q.exhausted := rfl

@[simp] theorem putExhausted (item : Item) : (q.put t item).exhausted = q.exhausted := rfl

@[simp] theorem modifyExhausted (f : Item → Item) : (q.modify t f).exhausted = q.exhausted := rfl

@[simp] theorem pushPendingExhausted : (q.pushPending t).exhausted = q.exhausted := rfl

@[simp] theorem modifyPathExhausted {f : QueuePath → QueuePath} (kept : ∀ path, (f path).stats = path.stats) :
    (q.modifyPath a f).exhausted = q.exhausted := by
  funext b i
  simp only [Queue.modifyPath,Queue.exhausted]
  rcases eq_or_ne b a with rfl | apart
  · rw [Function.update_self,kept]
  · rw [Function.update_of_ne apart]

end fields

structure PassEnd where
  t : TaskId
  identity : Identity
  now : UInt64
  failed : Bool
  complete : Bool
  rerun : Bool
  deriving DecidableEq, Repr

inductive Seen where
  | accepted (identity : Identity)
  | ended (pass : PassEnd)
  deriving DecidableEq, Repr

/- One section that concerns a task, with what is seen of it. -/
inductive Tended (q : Queue) : List Seen → Queue → Prop where
  | untouched {q'} (items : q'.items = q.items) (exhausted : q'.exhausted = q.exhausted) : Tended q [] q'
  | admitted {q' t item} (fresh : q.items t = none)
      (unique : ∀ u other, q.items u = some other → other.identity ≠ item.identity)
      (retries : item.retries = 0) (retryAt : item.retryAt = 0) (idle : item.running = false)
      (items : q'.items = Function.update q.items t (some item)) (exhausted : q'.exhausted = q.exhausted) :
      Tended q [.accepted item.identity] q'
  | renewed {q' t item} {p : Purge} (here : q.items t = some item)
      (unique : ∀ u other, q.items u = some other → other.identity = item.identity → u = t)
      (items : q'.items = Function.update q.items t (some (p.renew item)))
      (exhausted : q'.exhausted = q.exhausted) : Tended q [.accepted item.identity] q'
  | started {q' t item} {owner : Owner} (here : q.items t = some item)
      (items : q'.items = Function.update q.items t (some (item.start owner)))
      (exhausted : q'.exhausted = q.exhausted) : Tended q [] q'
  | lost {q' t item} {now : UInt64} (here : q.items t = some item)
      (items : q'.items = Function.update q.items t (some (item.requeue now)))
      (exhausted : q'.exhausted = q.exhausted) : Tended q [] q'
  | ended {q' t item} {slot : Slot} {now : UInt64} {w : Work} (here : q.items t = some item)
      (unique : ∀ u other, q.items u = some other → other.identity = item.identity → u = t)
      (items : q'.items = Function.update q.items t (item.settled now w))
      (exhausted : ∀ a i, q'.exhausted a i = if item.spent w ∧ a = item.path ∧ i = slot
        then q.exhausted a i + min 1 (0xFFFFFFFFFFFFFFFF - q.exhausted a i) else q.exhausted a i) :
      Tended q [.ended ⟨t,item.identity,now,w.failed,w.complete,item.rerun⟩] q'

abbrev Tending : Queue → List Seen → Queue → Prop := Trace Tended

theorem endTaskItems {slot : Slot} {now : UInt64} {t : TaskId} {item : Item} {w : Work} {q : Queue}
    (here : q.items t = some item) :
    (endTask slot now t item w q).items = Function.update q.items t (item.settled now w) := by
  unfold endTask Item.settled
  dsimp only
  have ways := @settleCases slot now t item q w
  generalize settleTask slot now t item w q = settled at ways ⊢
  cases ways with
  | again asked =>
    have asked' : (item.rerun || !w.complete) = true := by simpa using asked
    simp [Queue.modify,here,asked']
  | retried once whole errors few =>
    have failed : w.failed = true := by simpa [Work.failed] using errors
    simp [Queue.modify,here,once,whole,failed,few]
  | exhausted once whole errors many => simp [Queue.modifyPath,Queue.free,once,whole,not_lt.mpr many]
  | done once whole clean => simp [Queue.modifyPath,Queue.free,once,whole,Work.failed,clean]

theorem settleTaskExhausted {slot : Slot} {now : UInt64} {t : TaskId} {item : Item} {w : Work} {q : Queue}
    (a : Nat) (i : Slot) : (settleTask slot now t item w q).2.exhausted a i =
      if item.spent w ∧ a = item.path ∧ i = slot
      then q.exhausted a i + min 1 (0xFFFFFFFFFFFFFFFF - q.exhausted a i) else q.exhausted a i := by
  have ways := @settleCases slot now t item q w
  generalize settleTask slot now t item w q = settled at ways ⊢
  cases ways with
  | again asked =>
    have unspent : item.spent w = false := by
      unfold Item.spent
      rcases asked with rerun | cut
      · simp [rerun]
      · simp [cut]
    simp [unspent]
  | retried once whole errors few => simp [Item.spent,few]
  | exhausted once whole errors many =>
    have failed : w.failed = true := by simpa [Work.failed] using errors
    rw [statAddSpent]
    rcases eq_or_ne a item.path with rfl | apart
    · rcases eq_or_ne i slot with rfl | away
      · simp [Item.spent,once,whole,failed,many]
      · simp [away]
    · simp [apart]
  | done once whole clean => simp [Item.spent,Work.failed,clean]

theorem endTaskExhausted {slot : Slot} {now : UInt64} {t : TaskId} {item : Item} {w : Work} {q : Queue}
    (a : Nat) (i : Slot) : (endTask slot now t item w q).exhausted a i =
      if item.spent w ∧ a = item.path ∧ i = slot
      then q.exhausted a i + min 1 (0xFFFFFFFFFFFFFFFF - q.exhausted a i) else q.exhausted a i := by
  rw [← @settleTaskExhausted slot now t item w q]
  unfold endTask
  dsimp only
  split
  · simp only [fieldsExhausted,statAddExhausted,pushPendingExhausted,modifyExhausted,ne_eq,reduceCtorEq,
      not_false_eq_true]
  · simp only [freeExhausted,modifyPathExhausted,implies_true,fieldsExhausted,statAddExhausted,ne_eq,reduceCtorEq,not_false_eq_true]

section sections
variable {config : Config} {s : System}

def System.ending (s : System) : WorkerEvent → Option (UInt64 × Work)
  | .finish pid now _ => (s.find pid).map fun p => (now,p.work)
  | .exit pid now closed => (s.find pid).map fun p => (now,p.work.closing closed)
  | _ => none

def System.endOf (s : System) (e : WorkerEvent) (t : TaskId) : Option Seen :=
  match s.ending e, s.queue.items t with
  | some (now,w), some item => some (.ended ⟨t,item.identity,now,w.failed,w.complete,item.rerun⟩)
  | _, _ => none

def QueueOutput.seen (s : System) (e : WorkerEvent) : QueueOutput → Option Seen
  | .accepted identity => some (.accepted identity)
  | .finished _ t => s.endOf e t
  | _ => none

def seenOf (config : Config) (s : System) (e : WorkerEvent) : List Seen :=
  (s.step config e).2.filterMap (QueueOutput.seen s e)

def retryMachine (config : Config) : Machine System WorkerEvent Seen :=
  (systemMachine config).watch (seenOf config)

theorem loneIdentity (catalog : s.queue.Catalog) {t : TaskId} {item : Item} (here : s.queue.items t = some item) :
    ∀ u other, s.queue.items u = some other → other.identity = item.identity → u = t := by
  intro u other there same
  exact catalog.keys u t other item there here (congrArg Identity.path same) (congrArg Identity.key same)

theorem enqueueExhausted {platform : Platform} {names : Nat → Name} {slot : Option Slot} {exiting : Bool}
    {p : Purge} {o : Outcome} {q : Queue} {zones : Nat → Zone} :
    (enqueue platform names slot exiting p o q zones).2.1.exhausted = q.exhausted := by
  have renewed (a : Nat) (t : TaskId) : (renewTask slot p a t q).exhausted = q.exhausted := by
    unfold renewTask
    dsimp only
    split <;> simp
  have admitted (a : Nat) (t : TaskId) : (admitTask names slot p a t (q.put t .zeroed)).exhausted = q.exhausted := by
    unfold admitTask
    dsimp only
    split <;>
      simp only [fieldsExhausted,pushPendingExhausted,statAddExhausted,modifyPathExhausted,implies_true,putExhausted,
        ne_eq,reduceCtorEq,not_false_eq_true]
  have ways := @enqueueCases platform names slot p o q zones exiting
  generalize enqueue platform names slot exiting p o q zones = out at ways ⊢
  cases ways with
  | refused other declined => rfl
  | renewed found indexed published => exact renewed _ _
  | admitted found absent room fresh published => exact admitted _ _

theorem enqueueCells (catalog : s.queue.Catalog) (p : Process) (purge : Purge) (o : Outcome) :
    ((enqueueStep config p purge o s).2 = [] ∧ (enqueueStep config p purge o s).1.queue = s.queue) ∨
    ∃ a t, (enqueueStep config p purge o s).2 = [.accepted ⟨a,purge.indexKey config.names⟩] ∧
      ((∃ item, s.queue.items t = some item ∧ item.identity = ⟨a,purge.indexKey config.names⟩ ∧
        (enqueueStep config p purge o s).1.queue.items = Function.update s.queue.items t (some (purge.renew item))) ∨
      (s.queue.items t = none ∧
        (∀ u other, s.queue.items u = some other → other.identity ≠ ⟨a,purge.indexKey config.names⟩) ∧
        (enqueueStep config p purge o s).1.queue.items =
          Function.update s.queue.items t (some (purge.item config.names a)))) := by
  unfold enqueueStep
  dsimp only
  split
  · rename_i ok
    obtain ⟨_,_,a,t,found,done⟩ := enqueueAccepted catalog ok
    rw [found]
    refine .inr ⟨a,t,rfl,?_⟩
    rcases done with ⟨item,here,path,key,change,_⟩ | ⟨change,_⟩
    · cases change with
      | renew _ there _ _ _ _ items _ =>
      cases Option.some.inj (here.symm.trans there)
      exact .inl ⟨item,here,by rw [Item.identity,path,key],items⟩
    · cases change with
      | accept _ fresh _ _ _ unique _ _ _ _ items _ =>
      exact .inr ⟨fresh,fun u other there same =>
        unique u other there (congrArg Identity.path same) (congrArg Identity.key same),items⟩
  · rename_i refused
    exact .inl ⟨rfl,by rw [enqueueRefused refused]⟩

theorem enqueueTends (valid : s.Valid) (p : Process) (purge : Purge) (o : Outcome) (e : WorkerEvent) :
    Tended s.queue ((enqueueStep config p purge o s).2.filterMap (QueueOutput.seen s e))
      (enqueueStep config p purge o s).1.queue := by
  have spent : (enqueueStep config p purge o s).1.queue.exhausted = s.queue.exhausted := enqueueExhausted
  rcases @enqueueCells config s valid.queue.toCatalog p purge o with
    ⟨said,same⟩ | ⟨a,t,said,⟨item,here,mine,items⟩ | ⟨fresh,unique,items⟩⟩
  · rw [said,same]
    exact .untouched rfl rfl
  · have turn := Tended.renewed here (loneIdentity valid.queue.toCatalog here) items spent
    rw [mine] at turn
    rw [said]
    exact turn
  · rw [said]
    exact @Tended.admitted s.queue _ t (purge.item config.names a) fresh unique rfl rfl rfl items spent

theorem recoverTends (p : Process) (now : UInt64) (locked : Bool) (claims : Pid → Bool)
    (e : WorkerEvent) : (recoverStep p now locked claims s).2.filterMap (QueueOutput.seen s e) = [] ∧
      Tending s.queue [] (recoverStep p now locked claims s).1.queue := by
  have loop := @recoverInvariant (some p.slot) (s.alive claims) now (fun _ q => Tending s.queue [] q)
    (fun _ q chain => by
      have exhausted : (recoverOne (some p.slot) (s.alive claims) now q).1.exhausted = q.exhausted := by
        unfold recoverOne
        split
        · rfl
        split
        · rfl
        split
        · rfl
        · dsimp only
          simp only [statAddExhausted,fieldsExhausted,pushPendingExhausted,modifyExhausted,ne_eq,reduceCtorEq,
            not_false_eq_true]
      refine Trace.trans chain (Trace.once ?_)
      rcases @recoverOneChange (some p.slot) (s.alive claims) now q with ⟨_,change,_⟩ | ⟨t,item,here,_,_,_,change,_⟩
      · cases change with
        | shuffle _ _ _ _ _ items _ => exact .untouched items exhausted
      · cases change with
        | requeue _ there _ _ _ _ _ _ items _ => exact .lost here items exhausted) [] s.queue .done locked
  refine ⟨List.filterMap_eq_nil_iff.mpr fun o member => ?_,loop⟩
  obtain ⟨ended,_,rfl⟩ := List.mem_map.mp member
  rfl

theorem takeTends (p : Process) (now : UInt64) (locked poolFound : Bool) (e : WorkerEvent) :
    Tended s.queue ((takeStep config p now locked poolFound s).2.filterMap (QueueOutput.seen s e))
      (takeStep config p now locked poolFound s).1.queue := by
  have silent : (takeStep config p now locked poolFound s).2.filterMap (QueueOutput.seen s e) = [] := by
    unfold takeStep
    split
    · rfl
    · refine List.filterMap_eq_nil_iff.mpr fun o member => ?_
      dsimp only at member
      split at member
      · contradiction
      · obtain ⟨identity,_,rfl⟩ := Option.map_eq_some_iff.mp (Option.mem_toList.mp member)
        rfl
  rw [silent]
  have exhausted : (takeTask config.names p.namespaces p.pid p.slot p.leaving now locked poolFound
      s.queue p.work).2.1.exhausted = s.queue.exhausted := by
    have ways := @takeCases p.slot now config.names p.namespaces p.pid s.queue p.work p.leaving locked poolFound
    generalize takeTask config.names p.namespaces p.pid p.slot p.leaving now locked poolFound s.queue p.work =
      taken at ways ⊢
    cases ways with
    | idle code => rfl
    | turned selected => rfl
    | started staying selected here =>
      unfold startTask
      dsimp only
      split <;>
        simp only [statAddExhausted,fieldsExhausted,modifyExhausted,ne_eq,reduceCtorEq,not_false_eq_true]
  unfold takeStep
  split
  · exact .untouched rfl rfl
  · rcases @takeOutcome p.slot now config.names p.namespaces p.pid s.queue p.work p.leaving locked
      poolFound with ⟨_,change,_⟩ | ⟨t,item,here,_,_,change,_⟩
    · cases change with
      | shuffle _ _ _ _ _ items _ => exact .untouched items exhausted
    · cases change with
      | start _ there _ _ _ _ items _ =>
        cases Option.some.inj (here.symm.trans there)
        exact .started here items exhausted

@[simp] theorem reviseQueue (pid : Pid) (f : Process → Process) : (s.revise pid f).queue = s.queue := rfl

@[simp] theorem setWorkQueue (pid : Pid) (w : Work) : (s.setWork pid w).queue = s.queue := rfl

theorem walkEndUnseen (s : System) (p : Process) (e : WorkerEvent) :
    (s.walkEnd p).filterMap (QueueOutput.seen s e) = [] := by
  unfold System.walkEnd
  split
  · rfl
  · rename_i t _
    cases s.identity t <;> rfl

theorem endTended (valid : s.Valid) {p : Process} (member : p ∈ s.procs) {t : TaskId}
    (holds : p.work.item = some t) {e : WorkerEvent} {now : UInt64} {w : Work} (ending : s.ending e = some (now,w)) :
    ∃ item pass, s.queue.items t = some item ∧ s.endOf e t = some pass ∧
      ∀ q', q'.items = (endTask p.slot now t item w s.queue).items →
        q'.exhausted = (endTask p.slot now t item w s.queue).exhausted → Tended s.queue [pass] q' := by
  obtain ⟨_,_,item,here,_⟩ := valid.holding p member t holds
  refine ⟨item,_,here,by rw [System.endOf,ending,here],fun q' items exhausted => ?_⟩
  exact .ended here (loneIdentity valid.queue.toCatalog here) (items.trans (endTaskItems here))
    fun a i => by rw [exhausted]; exact endTaskExhausted a i

theorem finishTends (valid : s.Valid) {p : Process} {pid : Pid} (found : s.find pid = some p) (now : UInt64)
    (locked : Bool) : Tended s.queue
      ((finishStep p now locked s).2.filterMap (QueueOutput.seen s (.finish pid now locked)))
      (finishStep p now locked s).1.queue := by
  unfold finishStep
  split
  · exact .untouched rfl rfl
  · rename_i t holds
    split
    · dsimp only
      cases locked with
      | false => simpa [finishTask,holds] using Tended.untouched rfl rfl
      | true =>
        obtain ⟨item,pass,here,seen,turn⟩ := @endTended s valid p (findMember found).1 t holds
          (.finish pid now true) now p.work (by simp [System.ending,found])
        simp only [finishTask,holds,here,Bool.not_true,Bool.and_false,Bool.false_eq_true,if_false,Work.emptied]
        simpa [QueueOutput.seen,seen] using turn _ rfl rfl
    · exact .untouched rfl rfl

theorem exitTends (valid : s.Valid) {p : Process} {pid : Pid} (found : s.find pid = some p) (now closed : UInt64) :
    Tended s.queue ((exitStep p now closed s).2.filterMap (QueueOutput.seen s (.exit pid now closed)))
      (exitStep p now closed s).1.queue := by
  unfold exitStep
  dsimp only
  rcases Bool.eq_false_or_eq_true (p.work.active && !p.work.finished) with busy | free
  · rw [exitBusy busy]
    cases holds : p.work.item with
    | none => exact .untouched rfl rfl
    | some t => simpa [holds] using Tended.untouched rfl rfl
  · cases holds : p.work.item with
    | none =>
      rw [exitEmpty free holds]
      exact .untouched rfl rfl
    | some t =>
      obtain ⟨item,pass,here,seen,turn⟩ := @endTended s valid p (findMember found).1 t holds
        (.exit pid now closed) now (p.work.closing closed) (by simp [System.ending,found])
      rw [exitHolding free holds here]
      simpa [QueueOutput.seen,seen,Work.emptied] using turn (deregister p.slot _) rfl rfl

theorem processTends (valid : s.Valid) {p : Process} {pid : Pid} (found : s.find pid = some p) (e : WorkerEvent)
    (mine : e.pid = pid) (other : ∀ pid now locked claims, e ≠ .recover pid now locked claims) :
    Tended s.queue ((processStep config p s e).2.filterMap (QueueOutput.seen s e)) (processStep config p s e).1.queue := by
  cases e with
  | start _ _ _ _ => exact .untouched rfl rfl
  | gone _ => exact .untouched rfl rfl
  | thread _ _ => exact .untouched rfl rfl
  | leave _ => exact .untouched rfl rfl
  | enqueue _ purge o => exact enqueueTends valid p purge o _
  | recover pid now locked claims => exact absurd rfl (other pid now locked claims)
  | take _ now locked poolFound => exact takeTends p now locked poolFound _
  | post _ posted =>
    simp only [processStep]
    split <;> exact .untouched rfl rfl
  | notify _ =>
    simp only [processStep]
    split <;> exact .untouched rfl rfl
  | slice _ again counters =>
    simp only [processStep]
    split
    · cases again with
      | true => exact .untouched rfl rfl
      | false =>
        simp only [Bool.false_eq_true,if_false,walkEndUnseen]
        exact .untouched rfl rfl
    · exact .untouched rfl rfl
  | finish _ now locked =>
    cases mine
    exact finishTends valid found now locked
  | exit _ now closed =>
    cases mine
    exact exitTends valid found now closed

theorem stepTends (valid : s.Valid) (e : WorkerEvent) :
    Tended s.queue (seenOf config s e) (s.step config e).1.queue ∨
    (seenOf config s e = [] ∧ Tending s.queue [] (s.step config e).1.queue) := by
  unfold seenOf
  have ways := stepCases config s e
  generalize s.step config e = out at ways ⊢
  cases ways with
  | idle => exact .inl (.untouched rfl rfl)
  | started named pids slots init =>
    obtain ⟨_,_,_,_,_,_,items,counts,_⟩ := initWorkerSpec init
    refine .inl (.untouched items ?_)
    funext a i
    exact (counts a).stats i .exhausted (by decide)
  | gone => exact .inl (.untouched rfl rfl)
  | @threaded pid counters p found =>
    have silent : (s.walkEnd p).filterMap (QueueOutput.seen s (.thread pid counters)) = [] := walkEndUnseen s p _
    left
    rw [silent]
    exact .untouched rfl rfl
  | @processed _ p found running =>
    cases e with
    | recover pid now locked claims => exact .inr (recoverTends p now locked claims _)
    | _ => exact .inl (processTends valid found _ rfl fun _ _ _ _ same => WorkerEvent.noConfusion same)

end sections

def Seen.next (i : Identity) (n : Nat) : Seen → Nat
  | .accepted j => if j = i then 0 else n
  | .ended p =>
    if p.identity = i then (if p.rerun || !p.complete then 0 else if p.failed then n + 1 else 0) else n

def streak (i : Identity) (history : List Seen) : Nat := history.foldl (Seen.next i) 0

theorem streakAppend (i : Identity) (past out : List Seen) :
    streak i (past ++ out) = out.foldl (Seen.next i) (streak i past) := by
  rw [streak,List.foldl_append]
  rfl

theorem streakOther {i j : Identity} (other : i ≠ j) (past : List Seen) {p : PassEnd} (mine : p.identity = j) :
    streak i (past ++ [.ended p]) = streak i past := by
  rw [streakAppend]
  simp [Seen.next,mine,Ne.symm other]

structure Item.Kept (item : Item) (past : List Seen) : Prop where
  retries : item.retries = streak item.identity past
  few : item.retries ≤ 3
  asked : item.rerun = true → item.retries = 0
  due : item.retries = 0 → item.retryAt = 0

def Retried (past : List Seen) (q : Queue) : Prop := ∀ t item, q.items t = some item → item.Kept past

theorem requeueRetries (now : UInt64) (item : Item) : (item.requeue now).retries = item.retries ∧
    (item.requeue now).retryAt = item.retryAt ∧ (item.requeue now).rerun = false ∧
    (item.requeue now).identity = item.identity := by
  unfold Item.requeue
  cases item.nextProtection <;> exact ⟨rfl,rfl,rfl,rfl⟩

theorem renewRetries (p : Purge) (item : Item) : (p.renew item).retries = 0 ∧ (p.renew item).retryAt = 0 ∧
    (p.renew item).identity = item.identity ∧ ((p.renew item).running = true → (p.renew item).rerun = true) := by
  unfold Purge.renew
  cases running : item.running with
  | true => exact ⟨rfl,rfl,rfl,fun _ => rfl⟩
  | false => exact ⟨rfl,rfl,rfl,fun run => by simp at run⟩

theorem settledAgain {now : UInt64} {w : Work} {item item' : Item} (again : item.settled now w = some item') :
    item'.identity = item.identity ∧ item'.rerun = false ∧
    (((item.rerun || !w.complete) = true ∧ item'.retries = 0 ∧ item'.retryAt = 0) ∨
      ((item.rerun || !w.complete) = false ∧ w.failed = true ∧ item.retries < 3 ∧
        item'.retries = item.retries + 1 ∧ item'.retryAt = now + retryDelay item.retries)) := by
  unfold Item.settled at again
  split at again
  · rename_i asked
    cases Option.some.inj again
    obtain ⟨retries,retryAt,rerun,identity⟩ := requeueRetries now ({item with retries := 0, retryAt := 0} : Item)
    exact ⟨identity,rerun,.inl ⟨asked,retries,retryAt⟩⟩
  · rename_i steady
    split at again
    · rename_i failed
      obtain ⟨failed,few⟩ := Bool.and_eq_true_iff.mp failed
      cases Option.some.inj again
      obtain ⟨retries,retryAt,rerun,identity⟩ := requeueRetries now
        ({item with retryAt := now + retryDelay item.retries, retries := item.retries + 1} : Item)
      exact ⟨identity,rerun,.inr ⟨by simpa using steady,failed,by simpa using few,retries,retryAt⟩⟩
    · contradiction

theorem tendedRetried {past out : List Seen} {q q' : Queue} (retried : Retried past q) (turn : Tended q out q') :
    Retried (past ++ out) q' := by
  intro u item' here'
  cases turn with
  | untouched items _ =>
    rw [List.append_nil]
    exact retried u item' (items ▸ here')
  | @admitted _ t item fresh unique retries retryAt idle items _ =>
    rcases updatedItem items here' with ⟨_,same⟩ | ⟨_,here⟩
    · cases Option.some.inj same
      refine ⟨?_,by omega,fun _ => retries,fun _ => retryAt⟩
      rw [retries,streakAppend]
      simp [Seen.next]
    · have kept := retried u item' here
      refine ⟨?_,kept.few,kept.asked,kept.due⟩
      rw [kept.retries,streakAppend]
      simp [Seen.next,Ne.symm (unique u item' here)]
  | @renewed _ t item p here unique items _ =>
    rcases updatedItem items here' with ⟨_,same⟩ | ⟨other,there⟩
    · cases Option.some.inj same
      obtain ⟨retries,retryAt,identity,_⟩ := renewRetries p item
      refine ⟨?_,by omega,fun _ => retries,fun _ => retryAt⟩
      rw [retries,streakAppend,identity]
      simp [Seen.next]
    · have kept := retried u item' there
      refine ⟨?_,kept.few,kept.asked,kept.due⟩
      have apart : item.identity ≠ item'.identity := fun same => other (unique u item' there same.symm)
      rw [kept.retries,streakAppend]
      simp [Seen.next,apart]
  | @started _ t item owner here items _ =>
    rw [List.append_nil]
    rcases updatedItem items here' with ⟨_,same⟩ | ⟨_,there⟩
    · cases Option.some.inj same
      have kept := retried t item here
      exact ⟨kept.retries,kept.few,kept.asked,fun _ => rfl⟩
    · exact retried u item' there
  | @lost _ t item now here items _ =>
    rw [List.append_nil]
    rcases updatedItem items here' with ⟨_,same⟩ | ⟨_,there⟩
    · cases Option.some.inj same
      have kept := retried t item here
      obtain ⟨retries,retryAt,rerun,identity⟩ := requeueRetries now item
      refine ⟨by rw [retries,identity]; exact kept.retries,by rw [retries]; exact kept.few,?_,?_⟩
      · simp [rerun]
      · rw [retries,retryAt]
        exact kept.due
    · exact retried u item' there
  | @ended _ t item slot now w here unique items _ =>
    rcases updatedItem items here' with ⟨_,again⟩ | ⟨other,there⟩
    · have kept := retried t item here
      obtain ⟨identity,rerun,⟨asked,retries,retryAt⟩ | ⟨steady,failed,few,retries,_⟩⟩ := settledAgain again
      · refine ⟨?_,by omega,fun _ => retries,fun _ => retryAt⟩
        rw [retries,identity,streakAppend]
        simp only [List.foldl_cons,List.foldl_nil,Seen.next,if_true]
        rw [if_pos asked]
      · refine ⟨?_,by omega,by simp [rerun],by omega⟩
        rw [retries,identity,streakAppend,kept.retries]
        simp only [List.foldl_cons,List.foldl_nil,Seen.next,if_true,failed]
        rw [if_neg (by simp [steady])]
    · have kept := retried u item' there
      have apart : item'.identity ≠ item.identity := fun same => other (unique u item' there same)
      refine ⟨?_,kept.few,kept.asked,kept.due⟩
      rw [streakOther apart past rfl]
      exact kept.retries

section windows
variable (i : Identity)

def Seen.resets : Seen → Bool
  | .accepted j => j == i
  | .ended p => p.identity == i && !p.complete

def Seen.ends : Seen → Bool
  | .accepted _ => false
  | .ended p => p.identity == i

def Seen.fails : Seen → Bool
  | .accepted _ => false
  | .ended p => p.identity == i && p.failed && !p.rerun

def Seen.replays : Seen → Bool
  | .accepted _ => false
  | .ended p => p.identity == i && p.rerun

/- A charge that the passes of a task pay for: no section adds to it within a window. -/
structure Spends (c : Item → Nat) (test : Seen → Bool) : Prop where
  mine : ∀ o, test o = true → o.ends i = true
  start : ∀ item owner, c (Item.start owner item) ≤ c item
  lost : ∀ past item now, Item.Kept item past → c (item.requeue now) ≤ c item
  settled : ∀ past item t now w, Item.Kept item past → item.identity = i → w.complete = true →
    (test (.ended ⟨t,item.identity,now,w.failed,w.complete,item.rerun⟩)).toNat +
      ((item.settled now w).map c).getD 0 ≤ c item

def Within (c : Item → Nat) (n : Nat) (q : Queue) : Prop :=
  ∀ t item, q.items t = some item → item.identity = i → c item ≤ n

variable {i} {c : Item → Nat} {test : Seen → Bool} {past : List Seen} {n : Nat} {q q' : Queue}

theorem spendsSilent (spends : Spends i c test) {o : Seen} (other : o.ends i = false) : test o = false := by
  by_contra holds
  rw [spends.mine o (by simpa using holds)] at other
  contradiction

theorem withinUpdated {t : TaskId} {cell : Option Item} (within : Within i c n q)
    (items : q'.items = Function.update q.items t cell)
    (fits : ∀ item, cell = some item → item.identity = i → c item ≤ n) : Within i c n q' := by
  intro u item here mine
  rcases updatedItem items here with ⟨_,same⟩ | ⟨_,there⟩
  · exact fits item same mine
  · exact within u item there mine

theorem tendedSpends (spends : Spends i c test) (retried : Retried past q) (within : Within i c n q)
    {out : List Seen} (turn : Tended q out q') (window : ∀ o ∈ out, o.resets i = false) :
    ∃ left, Within i c left q' ∧ out.countP test + left ≤ n := by
  cases turn with
  | untouched items _ => exact ⟨n,fun u item here mine => within u item (items ▸ here) mine,by simp⟩
  | @admitted _ t item fresh unique retries retryAt idle items _ =>
    have apart : item.identity ≠ i := by simpa [Seen.resets] using window _ List.mem_cons_self
    refine ⟨n,withinUpdated within items fun item' same mine => ?_,
      by simp [@spendsSilent _ _ _ spends (.accepted item.identity) rfl]⟩
    cases Option.some.inj same
    exact absurd mine apart
  | @renewed _ t item p here unique items _ =>
    have apart : item.identity ≠ i := by simpa [Seen.resets] using window _ List.mem_cons_self
    refine ⟨n,withinUpdated within items fun item' same mine => ?_,
      by simp [@spendsSilent _ _ _ spends (.accepted item.identity) rfl]⟩
    cases Option.some.inj same
    exact absurd ((renewRetries p item).2.2.1.symm.trans mine) apart
  | @started _ t item owner here items _ =>
    refine ⟨n,withinUpdated within items fun item' same mine => ?_,by simp⟩
    cases Option.some.inj same
    exact (spends.start item owner).trans (within t item here mine)
  | @lost _ t item now here items _ =>
    refine ⟨n,withinUpdated within items fun item' same mine => ?_,by simp⟩
    cases Option.some.inj same
    have mine' : item.identity = i := (requeueRetries now item).2.2.2.symm.trans mine
    exact (spends.lost past item now (retried t item here)).trans (within t item here mine')
  | @ended _ t item slot now w here unique items _ =>
    by_cases mine : item.identity = i
    · have complete : w.complete = true := by
        simpa [Seen.resets,mine] using window _ List.mem_cons_self
      have paid := spends.settled past item t now w (retried t item here) mine complete
      refine ⟨((item.settled now w).map c).getD 0,fun u item' here' mine' => ?_,?_⟩
      · rcases updatedItem items here' with ⟨_,same⟩ | ⟨other,there⟩
        · simp [same]
        · exact absurd (unique u item' there (mine'.trans mine.symm)) other
      · rw [List.countP_singleton]
        have held := within t item here mine
        cases seen : test (.ended ⟨t,item.identity,now,w.failed,w.complete,item.rerun⟩) with
        | true =>
          simp only [seen,Bool.toNat_true] at paid
          simp only [if_true]
          omega
        | false =>
          simp only [seen,Bool.toNat_false] at paid
          simp only [Bool.false_eq_true,if_false]
          omega
    · refine ⟨n,withinUpdated within items fun item' same mine' => ?_,?_⟩
      · exact absurd ((settledAgain same).1.symm.trans mine') mine
      · rw [List.countP_singleton,spendsSilent spends (by simpa [Seen.ends] using mine)]
        simp

theorem failsSpend : Spends i (fun item => if item.rerun then 4 else 4 - item.retries) (Seen.fails i) := by
  refine ⟨fun o fails => ?_,fun _ _ => le_rfl,fun past item now kept => ?_,fun past item t now w kept mine complete => ?_⟩
  · cases o with
    | accepted j => simp [Seen.fails] at fails
    | ended p =>
      simp only [Seen.fails,Bool.and_eq_true] at fails
      exact fails.1.1
  · obtain ⟨retries,_,rerun,_⟩ := requeueRetries now item
    simp only [retries,rerun,Bool.false_eq_true,if_false]
    split <;> omega
  · have few := kept.few
    cases again : item.settled now w with
    | none =>
      simp only [Seen.fails,mine,beq_self_eq_true,Bool.true_and,Option.map_none,Option.getD_none]
      cases item.rerun <;> cases w.failed <;> simp
      omega
    | some item' =>
      obtain ⟨_,rerun,⟨asked,retries,_⟩ | ⟨steady,failed,few,retries,_⟩⟩ := settledAgain again
      · have asked : item.rerun = true := by simpa [complete] using asked
        simp [Seen.fails,asked,rerun,retries]
      · have steady : item.rerun = false := by simpa [complete] using steady
        simp only [Seen.fails,steady,failed,rerun,retries,mine,Option.map_some,Option.getD_some]
        simp
        omega

theorem replaysSpend : Spends i (fun item => item.rerun.toNat) (Seen.replays i) := by
  refine ⟨fun o replays => ?_,fun _ _ => le_rfl,fun past item now kept => ?_,fun past item t now w kept mine complete => ?_⟩
  · cases o with
    | accepted j => simp [Seen.replays] at replays
    | ended p =>
      simp only [Seen.replays,Bool.and_eq_true] at replays
      exact replays.1
  · simp [(requeueRetries now item).2.2.1]
  · have replayed : (Seen.replays i (.ended ⟨t,item.identity,now,w.failed,w.complete,item.rerun⟩)).toNat =
        item.rerun.toNat := by simp [Seen.replays,mine]
    rw [replayed]
    cases again : item.settled now w with
    | none => simp
    | some item' => simp [(settledAgain again).2.1]

end windows

section runs
variable {config : Config} {s : System} {past : List Seen}

theorem stepRetried (valid : s.Valid) (retried : Retried past s.queue) (e : WorkerEvent) :
    Retried (past ++ seenOf config s e) (s.step config e).1.queue := by
  rcases @stepTends config s valid e with turn | ⟨silent,turns⟩
  · exact tendedRetried retried turn
  · rw [silent]
    exact Trace.keeps (fun _ _ _ _ held turn => tendedRetried held turn) turns past retried

theorem stepSpends {i : Identity} {c : Item → Nat} {test : Seen → Bool} {n : Nat} (spends : Spends i c test)
    (valid : s.Valid) (retried : Retried past s.queue) (within : Within i c n s.queue) (e : WorkerEvent)
    (window : ∀ o ∈ seenOf config s e, o.resets i = false) :
    ∃ left, Within i c left (s.step config e).1.queue ∧ (seenOf config s e).countP test + left ≤ n := by
  rcases @stepTends config s valid e with turn | ⟨silent,turns⟩
  · exact tendedSpends spends retried within turn window
  · -- Nothing is seen of a recovery, so each of its sections leaves the charge alone.
    have kept := Trace.keeps (P := fun out q => out = [] → Retried past q ∧ Within i c n q)
      (fun out q out' q' held turn silent => by
        obtain ⟨rfl,rfl⟩ := List.append_eq_nil_iff.mp silent
        obtain ⟨retried,within⟩ := held rfl
        obtain ⟨left,within',paid⟩ := tendedSpends spends retried within turn (by simp)
        have next := tendedRetried retried turn
        rw [List.append_nil] at next
        exact ⟨next,fun t item here mine => (within' t item here mine).trans (by omega)⟩)
      turns [] fun _ => ⟨retried,within⟩
    exact ⟨n,(kept rfl).2,by simp [silent]⟩

theorem retryAfter (events : List WorkerEvent) :
    (retryMachine config).after s events = (systemMachine config).after s events :=
  Machine.watchAfter _ _ _ _

theorem runRetried (valid : s.Valid) (retried : Retried [] s.queue) (events : List WorkerEvent) :
    Retried ((retryMachine config).outputs s events) ((systemMachine config).after s events).queue := by
  rw [← retryAfter]
  exact ((retryMachine config).tracks (P := fun past s => s.Valid ∧ Retried past s.queue) ⟨valid,retried⟩
    (fun past s e held => ⟨stepKeepsValid held.1 e,stepRetried held.1 held.2 e⟩) events).2

theorem initRetried (maxSize : Nat) (paths : List (Nat × Bytes)) (epochs : Nat → Epoch) :
    Retried [] (systemInit maxSize paths epochs).queue :=
  fun t item here => by simp [systemInit,queueInit] at here

theorem runSpends {i : Identity} {c : Item → Nat} {test : Seen → Bool} {n : Nat} (spends : Spends i c test)
    (valid : s.Valid) (retried : Retried past s.queue) (within : Within i c n s.queue) {events : List WorkerEvent}
    (window : ∀ o ∈ (retryMachine config).outputs s events, o.resets i = false) :
    ((retryMachine config).outputs s events).countP test ≤ n := by
  have held := (retryMachine config).tracks (P := fun out s' => s'.Valid ∧ Retried (past ++ out) s'.queue ∧
      ((∀ o ∈ out, o.resets i = false) → ∃ left, Within i c left s'.queue ∧ out.countP test + left ≤ n))
    ⟨valid,by rwa [List.append_nil],fun _ => ⟨n,within,by simp⟩⟩
    (fun out s' e ⟨valid',retried',paid⟩ => by
      refine ⟨stepKeepsValid valid' e,?_,fun window => ?_⟩
      · rw [← List.append_assoc]
        exact stepRetried valid' retried' e
      · obtain ⟨left,within',sum⟩ := paid fun o member => window o (List.mem_append_left _ member)
        obtain ⟨rest,within'',sum'⟩ := stepSpends spends valid' retried' within' e
          fun o member => window o (List.mem_append_right _ member)
        refine ⟨rest,within'',?_⟩
        rw [List.countP_append]
        exact (Nat.add_assoc _ _ _).trans_le ((Nat.add_le_add_left sum' _).trans sum)) events
  obtain ⟨left,_,sum⟩ := held.2.2 window
  omega

theorem turnWaits {picked : Option (Process × Item)} {s' : System} {out : List QueueOutput} (valid : s.Valid)
    (turn : Turn config picked s out s')
    {t : TaskId} {item : Item} (here : s.queue.items t = some item) (waits : t ∈ s.queue.pending)
    (quiet : .accepted item.identity ∉ out) (idle : ∀ owner identity, .started owner t identity ∉ out) :
    s'.queue.items t = some item ∧ t ∈ s'.queue.pending := by
  have fate {q' : Queue} {act : Act} (change : Change s.queue act q') (other : act.task ≠ some t ∨
      (∃ item', act = .requeue t item') ∨ act = .retire t) : q'.items t = some item ∧ t ∈ q'.pending := by
    cases changeFate valid.queue change here with
    | apart _ here' pending _ => exact ⟨here',pending.mpr waits⟩
    | renewed => simp [Act.task] at other
    | started => simp [Act.task] at other
    | requeued held => exact absurd waits (activeNotPending valid.queue held)
    | retired held => exact absurd waits (activeNotPending valid.queue held)
  have ended {q' : Queue} {act : Act} {u : TaskId} (change : Change s.queue act q') (acts : act.ends = some u) :
      q'.items t = some item ∧ t ∈ q'.pending := by
    refine fate change ?_
    cases act with
    | requeue v item' =>
      rcases eq_or_ne v t with rfl | other
      · exact .inr (.inl ⟨item',rfl⟩)
      · exact .inl (by simp [Act.task,other])
    | retire v =>
      rcases eq_or_ne v t with rfl | other
      · exact .inr (.inr rfl)
      · exact .inl (by simp [Act.task,other])
    | _ => simp [Act.ends] at acts
  cases turn with
  | alone => exact ⟨here,waits⟩
  | walk => exact ⟨here,waits⟩
  | shuffle change => exact fate change (.inl (by simp [Act.task]))
  | @accept purge a u q' zones' change =>
    refine fate change (.inl fun same => ?_)
    cases Option.some.inj same
    cases change with
    | accept _ fresh => simp [fresh] at here
  | @renew purge a u old q' zones' there path key change =>
    refine fate change (.inl fun same => ?_)
    cases Option.some.inj same
    cases Option.some.inj (here.symm.trans there)
    subst path
    exact quiet (by simp [Item.identity,key])
  | @take p u old q' _ _ _ _ _ _ _ change =>
    refine fate change (.inl fun same => ?_)
    cases Option.some.inj same
    exact idle _ _ List.mem_cons_self
  | requeue _ _ _ _ change => exact ended change rfl
  | retire _ _ _ _ _ _ _ change => exact ended change rfl
  | recovered _ _ _ change => exact ended change rfl
  | deregister => exact ⟨here,waits⟩
  | start _ _ init =>
    obtain ⟨pending,_,_,_,_,_,items,_⟩ := initWorkerSpec init
    exact ⟨by rw [items]; exact here,by rw [pending]; exact waits⟩
  | gone => exact ⟨here,waits⟩

theorem runWaits (valid : s.Valid) {t : TaskId} {item : Item} (here : s.queue.items t = some item)
    (waits : t ∈ s.queue.pending) (events : List WorkerEvent)
    (quiet : .accepted item.identity ∉ (systemMachine config).outputs s events)
    (idle : ∀ owner identity, .started owner t identity ∉ (systemMachine config).outputs s events) :
    ((systemMachine config).after s events).queue.items t = some item := by
  refine (@runInvariant config s (fun out s' => .accepted item.identity ∉ out →
    (∀ owner identity, .started owner t identity ∉ out) →
    s'.queue.items t = some item ∧ t ∈ s'.queue.pending)
    (fun _ out s' more s'' valid' held turn quiet idle => ?_) valid (fun _ _ => ⟨here,waits⟩) events quiet idle).1
  simp only [List.mem_append,not_or] at quiet idle
  obtain ⟨here',waits'⟩ := held quiet.1 fun owner identity => (idle owner identity).1
  exact turnWaits valid' turn here' waits' quiet.2 fun owner identity => (idle owner identity).2

theorem selectedReady {items : TaskId → Option Item} {now : UInt64} {n : Nat} {pending : List TaskId} {t : TaskId}
    (selected : (selectReady items now n pending).1 = some t) : (items t).any (Item.ready now) = true := by
  induction n generalizing pending with
  | zero => simp [selectReady] at selected
  | succ n ih =>
    cases pending with
    | nil => simp [selectReady] at selected
    | cons u rest =>
      unfold selectReady at selected
      split at selected
      · rename_i ready
        cases Option.some.inj selected
        exact ready
      · exact ih selected

theorem takeStarted {p : Process} {now : UInt64} {locked poolFound : Bool} {owner : Owner} {t : TaskId}
    {identity : Identity} (started : .started owner t identity ∈ (takeStep config p now locked poolFound s).2) :
    ∃ item, s.queue.items t = some item ∧ item.ready now = true := by
  unfold takeStep at started
  split at started
  · contradiction
  · rename_i idle
    dsimp only at started
    split at started
    · contradiction
    · rename_i u holds
      obtain ⟨_,_,same⟩ := Option.map_eq_some_iff.mp (Option.mem_toList.mp started)
      cases same
      have free : p.work.item ≠ some t := fun held => idle (by simp [held])
      have ways := @takeCases p.slot now config.names p.namespaces p.pid s.queue p.work p.leaving locked poolFound
      generalize takeTask config.names p.namespaces p.pid p.slot p.leaving now locked poolFound s.queue p.work =
        taken at ways holds
      cases ways with
      | idle code => exact absurd holds free
      | turned selected => exact absurd holds free
      | @started v item rest staying selected here =>
        have chosen : v = t := by
          rw [beginHolds] at holds
          exact Option.some.inj holds
        subst chosen
        have ready := selectedReady (congrArg Prod.fst selected)
        exact ⟨item,here,by simpa [here] using ready⟩

theorem walkEndStarts (p : Process) {owner : Owner} {t : TaskId} {identity : Identity} :
    .started owner t identity ∉ s.walkEnd p := by
  unfold System.walkEnd
  split
  · exact List.not_mem_nil
  · rename_i u _
    cases s.identity u <;> simp

theorem startedReady {e : WorkerEvent} {owner : Owner} {t : TaskId} {identity : Identity}
    (started : .started owner t identity ∈ (s.step config e).2) :
    ∃ pid now locked poolFound item, e = .take pid now locked poolFound ∧ s.queue.items t = some item ∧
      item.ready now = true := by
  have mine {p : Process} (inside : .started owner t identity ∈ (processStep config p s e).2) :
      ∃ pid now locked poolFound item, e = .take pid now locked poolFound ∧ s.queue.items t = some item ∧
        item.ready now = true := by
    cases e with
    | take pid now locked poolFound =>
      obtain ⟨item,here,ready⟩ := takeStarted inside
      exact ⟨pid,now,locked,poolFound,item,rfl,here,ready⟩
    | enqueue pid purge o =>
      simp only [processStep,enqueueStep] at inside
      split at inside
      · obtain ⟨_,_,same⟩ := Option.map_eq_some_iff.mp (Option.mem_toList.mp inside)
        contradiction
      · contradiction
    | recover pid now locked claims =>
      obtain ⟨_,_,same⟩ := List.mem_map.mp inside
      contradiction
    | slice pid again counters =>
      simp only [processStep] at inside
      split at inside
      · cases again with
        | true => contradiction
        | false => exact absurd inside (walkEndStarts p)
      · contradiction
    | finish pid now locked =>
      simp only [processStep,finishStep] at inside
      split at inside
      · contradiction
      · split at inside
        · dsimp only at inside
          split at inside <;> simp at inside
        · contradiction
    | exit pid now closed =>
      simp only [processStep,exitStep] at inside
      split at inside
      · contradiction
      · split at inside <;> simp at inside
    | post pid posted =>
      simp only [processStep] at inside
      split at inside <;> contradiction
    | notify pid =>
      simp only [processStep] at inside
      split at inside <;> contradiction
    | _ => contradiction
  have ways := stepCases config s e
  generalize s.step config e = out at ways started
  cases ways with
  | idle | started | gone => contradiction
  | threaded found => exact absurd started (walkEndStarts _)
  | processed found running => exact mine started

def Unwrapped (earlier later : UInt64) : Prop :=
  earlier.toNat + 10000 < 2^64 ∧ earlier.toNat + 10000 ≤ later.toNat + 2^63

theorem delayBounded (n : Nat) : 0 < (retryDelay n).toNat ∧ (retryDelay n).toNat ≤ 10000 := by
  unfold retryDelay
  split
  · decide
  · split <;> decide

theorem readyLate {item : Item} {ended now : UInt64} {n : Nat} (delayed : item.retryAt = ended + retryDelay n)
    (ready : item.ready now = true) (unwrapped : Unwrapped ended now) :
    ended.toNat + (retryDelay n).toNat ≤ now.toNat := by
  obtain ⟨positive,bounded⟩ := delayBounded n
  obtain ⟨high,near⟩ := unwrapped
  have deadline : item.retryAt.toNat = ended.toNat + (retryDelay n).toNat := by
    rw [delayed,UInt64.toNat_add]
    omega
  have set : item.retryAt ≠ 0 := fun zero => by
    rw [zero] at deadline
    simp at deadline
    omega
  have passed : (now - item.retryAt).toNat < 2^63 := by
    simpa [Item.ready,set,reached] using ready
  rw [UInt64.toNat_sub,deadline] at passed
  have small := now.toNat_lt
  omega

theorem seenTended (valid : s.Valid) {e : WorkerEvent} {o : Seen} (seen : o ∈ seenOf config s e) :
    Tended s.queue [o] (s.step config e).1.queue := by
  have lone {q q' : Queue} {out : List Seen} (turn : Tended q out q') (member : o ∈ out) : out = [o] := by
    cases turn with
    | untouched | started | lost => contradiction
    | admitted | renewed | ended => rw [List.mem_singleton.mp member]
  rcases @stepTends config s valid e with turn | ⟨silent,_⟩
  · rw [← lone turn seen]
    exact turn
  · rw [silent] at seen
    contradiction

theorem idleWaits {q : Queue} (valid : q.Valid) {t : TaskId} {item : Item} (here : q.items t = some item)
    (idle : item.running = false) : t ∈ q.pending := by
  rcases cellListed valid here with waits | held
  · exact waits
  · rw [(valid.flags t item here).mpr held] at idle
    contradiction

theorem settledIdle {now : UInt64} {w : Work} {item item' : Item} (again : item.settled now w = some item') :
    item'.running = false := by
  unfold Item.settled at again
  split at again
  · cases Option.some.inj again
    exact requeueRunning now _
  · split at again
    · cases Option.some.inj again
      exact requeueRunning now _
    · contradiction

theorem unspentSame {q q' : Queue} {item : Item} {slot : Slot} {w : Work} (unspent : item.spent w = false)
    (exhausted : ∀ a i, q'.exhausted a i = if item.spent w ∧ a = item.path ∧ i = slot
      then q.exhausted a i + min 1 (0xFFFFFFFFFFFFFFFF - q.exhausted a i) else q.exhausted a i) :
    q'.exhausted = q.exhausted := by
  funext a i
  rw [exhausted,if_neg]
  simp [unspent]

def HeldBack (config : Config) (s : System) (p : PassEnd) (delay : UInt64) : Prop :=
  ∀ (back : List WorkerEvent) (e : WorkerEvent) (owner : Owner) (identity : Identity),
    .accepted p.identity ∉ (systemMachine config).outputs s back →
    (∀ owner identity, .started owner p.t identity ∉ (systemMachine config).outputs s back) →
    .started owner p.t identity ∈ (((systemMachine config).after s back).step config e).2 →
    ∃ pid now locked poolFound, e = .take pid now locked poolFound ∧
      (Unwrapped p.now now → p.now.toNat + delay.toNat ≤ now.toNat)

/- What the end of a pass makes of its task, after n failed passes that count. -/
structure PassSettled (config : Config) (n : Nat) (s s' : System) (p : PassEnd) : Prop where
  clean : p.complete = true → p.rerun = false → p.failed = false →
    s'.queue.items p.t = none ∧ s'.queue.exhausted = s.queue.exhausted
  delayed : p.complete = true → p.rerun = false → p.failed = true → n < 3 →
    (∃ item, s'.queue.items p.t = some item ∧ item.identity = p.identity ∧ p.t ∈ s'.queue.pending ∧
      item.retries = n + 1 ∧ item.retryAt = p.now + retryDelay n) ∧
    s'.queue.exhausted = s.queue.exhausted ∧ HeldBack config s' p (retryDelay n)
  spent : p.complete = true → p.rerun = false → p.failed = true → 3 ≤ n →
    n = 3 ∧ s'.queue.items p.t = none ∧ ∃ slot, ∀ a i, s'.queue.exhausted a i =
      if a = p.identity.path ∧ i = slot
      then s.queue.exhausted a i + min 1 (0xFFFFFFFFFFFFFFFF - s.queue.exhausted a i)
      else s.queue.exhausted a i
  repeated : (p.rerun || !p.complete) = true →
    (∃ item, s'.queue.items p.t = some item ∧ item.identity = p.identity ∧ p.t ∈ s'.queue.pending ∧
      item.retries = 0 ∧ item.retryAt = 0) ∧ s'.queue.exhausted = s.queue.exhausted

theorem endSettles (valid : s.Valid) (retried : Retried past s.queue) {e : WorkerEvent} {p : PassEnd}
    (seen : .ended p ∈ seenOf config s e) :
    PassSettled config (streak p.identity past) s (s.step config e).1 p := by
  have next := @stepKeepsValid config s valid e
  cases seenTended valid seen with
  | @ended _ t item slot now w here unique items exhausted =>
  have cell : (s.step config e).1.queue.items t = item.settled now w := by rw [items,Function.update_self]
  have kept := retried t item here
  dsimp only at kept ⊢
  refine ⟨fun complete steady clean => ?_,fun complete steady failed few => ?_,fun complete steady failed many => ?_,
    fun asked => ?_⟩
  · dsimp only at complete steady clean
    refine ⟨?_,unspentSame (by simp [Item.spent,clean]) exhausted⟩
    rw [cell]
    simp [Item.settled,complete,steady,clean]
  · dsimp only at complete steady failed few
    have few' : item.retries < 3 := by rw [kept.retries]; exact few
    cases again : item.settled now w with
    | none => simp [Item.settled,complete,steady,failed,few'] at again
    | some item' =>
      rw [again] at cell
      obtain ⟨identity,_,⟨asked,_⟩ | ⟨_,_,_,retries,retryAt⟩⟩ := settledAgain again
      · simp [steady,complete] at asked
      rw [kept.retries] at retries retryAt
      have waits := idleWaits next.queue cell (settledIdle again)
      refine ⟨⟨item',cell,identity,waits,retries,retryAt⟩,
        unspentSame (by simp only [Item.spent,decide_eq_false (Nat.not_le.mpr few'),Bool.and_false]) exhausted,?_⟩
      intro back e' owner id quiet idle started
      have still := runWaits next cell waits back (by rw [identity]; exact quiet) idle
      obtain ⟨pid,later,locked,poolFound,item'',rfl,here'',ready⟩ := startedReady started
      cases Option.some.inj (still.symm.trans here'')
      exact ⟨pid,later,locked,poolFound,rfl,fun unwrapped => readyLate retryAt ready unwrapped⟩
  · dsimp only at complete steady failed many
    have three : item.retries = 3 := by
      have few := kept.few
      rw [← kept.retries] at many
      omega
    refine ⟨by rw [← kept.retries]; exact three,?_,slot,fun a i => ?_⟩
    · rw [cell]
      simp [Item.settled,complete,steady,three]
    · have spent : item.spent w = true := by simp [Item.spent,complete,steady,failed,three]
      rw [exhausted]
      by_cases here : a = item.path ∧ i = slot
      · rw [if_pos ⟨spent,here⟩]
        exact (if_pos here).symm
      · rw [if_neg fun both => here both.2]
        exact (if_neg here).symm
  · dsimp only at asked
    have unspent : item.spent w = false := by
      unfold Item.spent
      rcases Bool.or_eq_true_iff.mp asked with again | cut
      · simp [again]
      · simp only [Bool.not_eq_eq_eq_not,Bool.not_true] at cut
        simp [cut]
    cases again : item.settled now w with
    | none => simp [Item.settled,asked] at again
    | some item' =>
      rw [again] at cell
      obtain ⟨identity,_,⟨_,retries,retryAt⟩ | ⟨steady,_⟩⟩ := settledAgain again
      · exact ⟨⟨item',cell,identity,idleWaits next.queue cell (settledIdle again),retries,retryAt⟩,
          unspentSame unspent exhausted⟩
      · rw [asked] at steady
        contradiction

theorem exhaustedOnly (valid : s.Valid) (retried : Retried past s.queue) {e : WorkerEvent}
    (others : ∀ p, .ended p ∈ seenOf config s e →
      ¬ (p.complete = true ∧ p.rerun = false ∧ p.failed = true ∧ streak p.identity past = 3)) :
    (s.step config e).1.queue.exhausted = s.queue.exhausted := by
  have one {q q' : Queue} {out : List Seen} (retried : Retried past q) (turn : Tended q out q')
      (others : ∀ p, .ended p ∈ out →
        ¬ (p.complete = true ∧ p.rerun = false ∧ p.failed = true ∧ streak p.identity past = 3)) :
      q'.exhausted = q.exhausted := by
    cases turn with
    | untouched _ exhausted | started _ _ exhausted | lost _ _ exhausted | renewed _ _ _ exhausted => exact exhausted
    | admitted _ _ _ _ _ _ exhausted => exact exhausted
    | @ended _ t item slot now w here _ _ exhausted =>
      refine unspentSame ?_ exhausted
      by_contra spent
      simp only [Item.spent,Bool.not_eq_false,Bool.and_eq_true,decide_eq_true_eq,Bool.not_eq_eq_eq_not,
        Bool.not_true] at spent
      obtain ⟨⟨⟨steady,complete⟩,failed⟩,many⟩ := spent
      have kept := retried t item here
      have few := kept.few
      exact others _ List.mem_cons_self ⟨complete,steady,failed,by rw [← kept.retries]; omega⟩
  rcases @stepTends config s valid e with turn | ⟨_,turns⟩
  · exact one retried turn others
  · exact (Trace.keeps (P := fun out q => out = [] → Retried past q ∧ q.exhausted = s.queue.exhausted)
      (fun out q out' q' held turn silent => by
        obtain ⟨rfl,rfl⟩ := List.append_eq_nil_iff.mp silent
        obtain ⟨retried,same⟩ := held rfl
        have next := tendedRetried retried turn
        rw [List.append_nil] at next
        exact ⟨next,(one retried turn (by simp)).trans same⟩) turns [] (fun _ => ⟨retried,rfl⟩) rfl).2

theorem acceptedFresh (valid : s.Valid) {e : WorkerEvent} {i : Identity} (seen : .accepted i ∈ seenOf config s e) :
    ∃ t item, (s.step config e).1.queue.items t = some item ∧ item.identity = i ∧ item.retries = 0 ∧
      item.retryAt = 0 ∧ (t ∈ (s.step config e).1.queue.pending ∨
        (t ∈ (s.step config e).1.queue.active ∧ item.rerun = true)) := by
  have next := @stepKeepsValid config s valid e
  cases seenTended valid seen with
  | @admitted _ t item _ _ retries retryAt idle items _ =>
    have here : (s.step config e).1.queue.items t = some item := by rw [items,Function.update_self]
    exact ⟨t,item,here,rfl,retries,retryAt,.inl (idleWaits next.queue here idle)⟩
  | @renewed _ t item p here _ items _ =>
    have here' : (s.step config e).1.queue.items t = some (p.renew item) := by rw [items,Function.update_self]
    obtain ⟨retries,retryAt,identity,asked⟩ := renewRetries p item
    refine ⟨t,p.renew item,here',identity,retries,retryAt,?_⟩
    rcases cellListed next.queue here' with waits | held
    · exact .inl waits
    · exact .inr ⟨held,asked ((next.queue.flags t _ here').mpr held)⟩

end runs

/- Within a window at most four passes count as failed, with one more at most that
was under way when a request before the window asked for its replay. -/
theorem boundedRetries (config : Config) (maxSize : Nat) (paths : List (Nat × Bytes)) (epochs : Nat → Epoch) :
    let run := (systemMachine config).after (systemInit maxSize paths epochs)
    let seen := (retryMachine config).outputs (systemInit maxSize paths epochs)
    (∀ (front events : List WorkerEvent) (i : Identity), let window := (retryMachine config).outputs (run front) events
      (∀ o ∈ window, o.resets i = false) →
      window.countP (Seen.fails i) ≤ 4 ∧ window.countP (Seen.replays i) ≤ 1 ∧
      ((∀ t item, (run front).queue.items t = some item → item.identity = i → item.rerun = false) →
        window.countP (Seen.replays i) = 0)) ∧
    (∀ (events : List WorkerEvent) (t : TaskId) (item : Item), (run events).queue.items t = some item →
      item.retries = streak item.identity (seen events) ∧ item.retries ≤ 3 ∧
      (item.retries = 0 → item.retryAt = 0)) ∧
    (∀ (front : List WorkerEvent) (e : WorkerEvent) (p : PassEnd), .ended p ∈ seenOf config (run front) e →
      PassSettled config (streak p.identity (seen front)) (run front) (run (front ++ [e])) p) ∧
    (∀ (front : List WorkerEvent) (e : WorkerEvent), (∀ p, .ended p ∈ seenOf config (run front) e →
      ¬ (p.complete = true ∧ p.rerun = false ∧ p.failed = true ∧ streak p.identity (seen front) = 3)) →
      (run (front ++ [e])).queue.exhausted = (run front).queue.exhausted) ∧
    ∀ (front : List WorkerEvent) (e : WorkerEvent) (i : Identity), .accepted i ∈ seenOf config (run front) e →
      let q := (run (front ++ [e])).queue
      ∃ t item, q.items t = some item ∧ item.identity = i ∧ item.retries = 0 ∧ item.retryAt = 0 ∧
        (t ∈ q.pending ∨ (t ∈ q.active ∧ item.rerun = true)) := by
  intro run seen
  have valid (events : List WorkerEvent) : (run events).Valid :=
    runKeepsValid (initSystemValid maxSize paths epochs) events
  have retried (events : List WorkerEvent) : Retried (seen events) (run events).queue :=
    runRetried (initSystemValid maxSize paths epochs) (initRetried maxSize paths epochs) events
  have next (front : List WorkerEvent) (e : WorkerEvent) : run (front ++ [e]) = ((run front).step config e).1 :=
    Machine.afterLast _ _ _ _
  refine ⟨?_,fun events t item here => ?_,fun front e p ended => ?_,fun front e others => ?_,?_⟩
  · intro front events i window closed
    refine ⟨?_,?_,fun unasked => ?_⟩
    · refine runSpends failsSpend (valid front) (retried front) (fun t item here mine => ?_) closed
      dsimp only
      split <;> omega
    · exact runSpends replaysSpend (valid front) (retried front) (fun t item _ _ => Bool.toNat_le _) closed
    · refine Nat.le_zero.mp (runSpends replaysSpend (valid front) (retried front) (fun t item here mine => ?_) closed)
      simp [unasked t item here mine]
  · have kept := retried events t item here
    exact ⟨kept.retries,kept.few,kept.due⟩
  · rw [next]
    exact endSettles (valid front) (retried front) ended
  · rw [next]
    exact exhaustedOnly (valid front) (retried front) others
  · intro front e i accepted q
    simp only [q,next]
    exact acceptedFresh (valid front) accepted

def retryConfig : Config := ⟨posix,fun _ => siteName⟩

def retryPurge : Purge := ⟨true,[47,99],none,[47,97],false,none,[],[],0⟩

def retryInit : System := systemInit 4 [(1,[47,99])] fun _ => siteEpoch

def failingPass (start : UInt64) : List WorkerEvent :=
  [.take 7 start true false,.slice 7 false ⟨0,1,0,0⟩,.finish 7 start true]

def askedAgain : List WorkerEvent :=
  [.start 7 0 false [],.enqueue 7 retryPurge ⟨true,true,some 5,[]⟩,.take 7 1000 true false,
    .enqueue 7 retryPurge ⟨true,true,some 6,[]⟩]

def fiveFailures : List WorkerEvent :=
  [.slice 7 false ⟨0,1,0,0⟩,.finish 7 1000 true] ++ failingPass 2000 ++ failingPass 3000 ++ failingPass 5000 ++
    failingPass 20000

def Seen.errs (i : Identity) : Seen → Bool
  | .accepted _ => false
  | .ended p => p.identity == i && p.failed

theorem boundedRetriesAsked :
    let window := (retryMachine retryConfig).outputs ((systemMachine retryConfig).after retryInit askedAgain) fiveFailures
    window.countP (Seen.fails ⟨1,[76,47,97]⟩) ≤ 4 ∧ window.countP (Seen.replays ⟨1,[76,47,97]⟩) ≤ 1 :=
  have closed := (boundedRetries retryConfig 4 [(1,[47,99])] fun _ => siteEpoch).1 askedAgain fiveFailures
    ⟨1,[76,47,97]⟩ (by decide +kernel)
  ⟨closed.1,closed.2.1⟩

theorem retriesOutsideWindow :
    let window := (retryMachine retryConfig).outputs ((systemMachine retryConfig).after retryInit askedAgain) fiveFailures
    (∀ o ∈ window, o.resets ⟨1,[76,47,97]⟩ = false) ∧ window.countP (Seen.errs ⟨1,[76,47,97]⟩) = 5 := by
  decide +kernel

end CachePurge
