import CachePurge.GenerationVersions
import CachePurge.QueueCharges

/-! Every operation as a change: admission with its nested publication, the
start of a pass, its end, and one step of recovery. Admission is all or nothing
over the queue and the namespace. -/
namespace CachePurge
open General

theorem lookupFound {q : Queue} {a : Nat} {key : Bytes} {t : TaskId} (found : q.lookup a key = some t) :
    t ∈ (q.path a).index ∧ ∃ item, q.items t = some item ∧ item.key = key := by
  refine ⟨List.mem_of_find?_eq_some found,?_⟩
  have matched := List.find?_some found
  cases here : q.items t with
  | none => simp [here] at matched
  | some item => exact ⟨item,rfl,by simpa [here] using matched⟩

theorem lookupAbsent {q : Queue} {a : Nat} {key : Bytes} (absent : q.lookup a key = none) {t : TaskId}
    (member : t ∈ (q.path a).index) {item : Item} (here : q.items t = some item) : item.key ≠ key := by
  have other := List.find?_eq_none.mp absent t member
  simpa [here] using other

theorem publishRefused {names : Nat → Name} {p : Purge} {o : Outcome} {zones : Nat → Zone}
    (refused : (p.publish names o zones).1 ≠ .ok) : (p.publish names o zones).2 = zones := by
  unfold Purge.publish at refused ⊢
  split
  · rfl
  · rename_i n named
    rw [named] at refused
    rcases invalidateOutcome (names n) (p.invalidation o) (zones n) with ⟨_,same⟩ | ⟨accepted,_⟩
    · simp [same]
    · exact absurd accepted refused

theorem putFree {q : Queue} {t : TaskId} (fresh : q.items t = none) (item : Item) :
    (q.put t item).free t = q := by
  simp only [Queue.put,Queue.free,Function.update_idem]
  rw [← fresh,Function.update_eq_self]

section enqueue
variable {platform : Platform} {names : Nat → Name} {slot : Option Slot} {p : Purge} {o : Outcome}
  {q : Queue} {zones : Nat → Zone} {a : Nat}

/- The ways a request ends. Nothing is left of a refusal, and a refusal for the selector
comes from its length or from the namespace. -/
inductive Enqueued (platform : Platform) (names : Nat → Name) (slot : Option Slot) (p : Purge) (o : Outcome) (q : Queue)
    (zones : Nat → Zone) : Rc × Queue × (Nat → Zone) → Prop where
  | refused {rc : Rc} (other : rc ≠ .ok)
      (declined : rc = .declined → p.tooLong = true ∨ (p.publish names o zones).1 = .declined) :
      Enqueued platform names slot p o q zones (rc,q,zones)
  | renewed {a : Nat} {t : TaskId} (found : q.findPath platform p.cachePath = some a)
      (indexed : q.lookup a (p.indexKey names) = some t) (published : (p.publish names o zones).1 = .ok) :
      Enqueued platform names slot p o q zones (.ok,renewTask slot p a t q,(p.publish names o zones).2)
  | admitted {a : Nat} {t : TaskId} (found : q.findPath platform p.cachePath = some a)
      (absent : q.lookup a (p.indexKey names) = none) (room : q.size + q.running < q.maxSize)
      (fresh : q.items t = none) (published : (p.publish names o zones).1 = .ok) :
      Enqueued platform names slot p o q zones
        (.ok,admitTask names slot p a t (q.put t .zeroed),(p.publish names o zones).2)

theorem duplicateCases {t : TaskId} (found : q.findPath platform p.cachePath = some a)
    (indexed : q.lookup a (p.indexKey names) = some t) :
    Enqueued platform names slot p o q zones (enqueueDuplicate names slot p o a t q zones) := by
  unfold enqueueDuplicate
  dsimp only
  split
  · rename_i failed
    rw [publishRefused failed]
    exact .refused failed .inr
  · rename_i published
    exact .renewed found indexed (not_not.mp published)

theorem newCases (found : q.findPath platform p.cachePath = some a)
    (absent : q.lookup a (p.indexKey names) = none) :
    Enqueued platform names slot p o q zones (enqueueNew names slot p o a q zones) := by
  unfold enqueueNew
  split
  · exact .refused (by simp) (by simp)
  rename_i room
  split
  · exact .refused (by simp) (by simp)
  rename_i t granted
  split
  · exact .refused (by simp) (by simp)
  rename_i occupied
  have fresh : q.items t = none := by simpa using occupied
  dsimp only
  split
  · rename_i failed
    rw [publishRefused failed,putFree fresh]
    exact .refused failed .inr
  · rename_i published
    exact .admitted found absent (not_le.mp room) fresh (not_not.mp published)

theorem enqueueCases (exiting : Bool) :
    Enqueued platform names slot p o q zones (enqueue platform names slot exiting p o q zones) := by
  unfold enqueue
  split
  · exact .refused (by simp) (by simp)
  split
  · exact .refused (by simp) (by simp)
  split
  · rename_i long
    exact .refused (by simp) fun _ => .inl long
  split
  · exact .refused (by simp) (by simp)
  split
  · exact .refused (by simp) (by simp)
  · rename_i a found
    split
    · rename_i t indexed
      exact duplicateCases found indexed
    · rename_i absent
      exact newCases found absent

theorem enqueueRefused {exiting : Bool}
    (refused : (enqueue platform names slot exiting p o q zones).1 ≠ .ok) :
    (enqueue platform names slot exiting p o q zones).2 = (q,zones) := by
  have ways := @enqueueCases platform names slot p o q zones exiting
  generalize enqueue platform names slot exiting p o q zones = out at ways refused ⊢
  cases ways with
  | refused other declined => rfl
  | renewed found indexed published => contradiction
  | admitted found absent room fresh published => contradiction

theorem enqueuePublished {exiting : Bool}
    (ok : (enqueue platform names slot exiting p o q zones).1 = .ok) : (p.publish names o zones).1 = .ok := by
  have ways := @enqueueCases platform names slot p o q zones exiting
  generalize enqueue platform names slot exiting p o q zones = out at ways ok
  cases ways with
  | refused other declined => contradiction
  | renewed found indexed published => exact published
  | admitted found absent room fresh published => exact published

theorem renewChange {t : TaskId} {item : Item} (here : q.items t = some item) :
    Change q (.renew t p) (renewTask slot p a t q) := by
  refine .renew ⟨?_,?_,?_,?_,?_,?_⟩ here ?_ ?_ ?_ ?_ ?_ ?_ <;>
  · simp only [renewTask]
    split <;> simp [Queue.modify,here]

theorem invalidatedApart (p : Purge) (slot : Slot) {k : Account} (counted : k.field.counted = true) :
    due (if p.ns.isSome then [⟨⟨a,slot,.invalidated⟩,1⟩] else []) k = 0 := by
  obtain ⟨b,i,field⟩ := k
  split
  · cases field <;> simp [Metric.counted] at counted ⊢
  · rfl

theorem renewCharged {t : TaskId} : Charged slot q (.renew t p) (renewTask slot p a t q) := by
  have free (k : Account) : Act.bill (.renew t p) q slot k = 0 := by
    unfold Act.bill
    cases here : q.items t with
    | none => simp [Act.item,here]
    | some item => cases field : k.field <;> simp [Act.item,here,Act.charge,Act.enters,Act.starts,Act.stops]
  cases slot with
  | none => exact chargedNothing (by simp [renewTask,Queue.ledger]) fun k _ => free k
  | some slot =>
    refine chargedBy (⟨⟨a,slot,.deduplicated⟩,1⟩ :: if p.ns.isSome then [⟨⟨a,slot,.invalidated⟩,1⟩] else []) ?_
      fun k counted => ?_
    · simp only [renewTask,Queue.ledger]
      split <;> simp
    · rw [free,dueCons,invalidatedApart p slot counted]
      obtain ⟨b,i,field⟩ := k
      cases field <;> simp [Metric.counted] at counted ⊢

theorem admitChange {t : TaskId} (catalog : q.Catalog) (fresh : q.items t = none)
    (room : q.size + q.running < q.maxSize) (placed : a ∈ q.paths)
    (absent : q.lookup a (p.indexKey names) = none) :
    Change q (.accept t (p.item names a)) (admitTask names slot p a t (q.put t .zeroed)) := by
  have unique : ∀ u other, q.items u = some other → other.path = (p.item names a).path →
      other.key ≠ (p.item names a).key := by
    intro u other here same
    exact lookupAbsent absent ((catalog.indexed a u).mpr ⟨other,here,same⟩) here
  refine .accept ⟨?_,?_,?_,?_,?_,?_⟩ fresh room rfl placed unique ?_ ?_ ?_ ?_ ?_ ?_
  all_goals
    simp only [admitTask]
    split <;> simp [Queue.modifyPath,Queue.put,Purge.item,Function.update_apply]
  all_goals
    intro b
    split <;> simp_all

theorem admitCharged {t : TaskId} :
    Charged slot q (.accept t (p.item names a)) (admitTask names slot p a t (q.put t .zeroed)) := by
  cases slot with
  | none =>
    refine chargedNothing ?_ fun k _ => slotlessFree k
    simp only [admitTask,Queue.ledger]
    split <;> simp
  | some slot =>
    refine chargedBy (⟨⟨a,slot,.enqueued⟩,1⟩ :: ⟨⟨a,slot,.enqueuedFull⟩,if p.purgeAll then 1 else 0⟩ ::
      if p.ns.isSome then [⟨⟨a,slot,.invalidated⟩,1⟩] else []) ?_ fun k counted => ?_
    · simp only [admitTask,Queue.ledger]
      split <;> simp
    · rw [dueCons,dueCons,invalidatedApart p slot counted]
      obtain ⟨b,i,field⟩ := k
      cases field <;> simp [Metric.counted] at counted ⊢ <;>
        simp [Act.bill,Act.item,Act.charge,Act.enters,Act.starts,Act.stops,Purge.item,and_comm]

theorem enqueueAccepted {exiting : Bool} (catalog : q.Catalog)
    (ok : (enqueue platform names slot exiting p o q zones).1 = .ok) :
    (p.publish names o zones).1 = .ok ∧
    (enqueue platform names slot exiting p o q zones).2.2 = (p.publish names o zones).2 ∧
    ∃ a t, q.findPath platform p.cachePath = some a ∧
      ((∃ item, q.items t = some item ∧ item.path = a ∧ item.key = p.indexKey names ∧
        Accounted slot q (.renew t p) (enqueue platform names slot exiting p o q zones).2.1) ∨
      Accounted slot q (.accept t (p.item names a)) (enqueue platform names slot exiting p o q zones).2.1) := by
  have ways := @enqueueCases platform names slot p o q zones exiting
  generalize enqueue platform names slot exiting p o q zones = out at ways ok ⊢
  cases ways with
  | refused other declined => contradiction
  | @renewed a t found indexed published =>
    obtain ⟨member,item,here,key⟩ := lookupFound indexed
    obtain ⟨_,same,path⟩ := (catalog.indexed a t).mp member
    cases Option.some.inj (here.symm.trans same)
    exact ⟨published,rfl,a,t,found,.inl ⟨item,here,path,key,renewChange here,renewCharged⟩⟩
  | @admitted a t found absent room fresh published =>
    have placed : a ∈ q.paths := List.mem_of_find?_eq_some found
    exact ⟨published,rfl,a,t,found,.inr ⟨admitChange catalog fresh room placed absent,admitCharged⟩⟩

theorem publishSerial {n : Nat} (named : p.ns = some n) (ok : (p.publish names o zones).1 = .ok) :
    ((p.publish names o zones).2 n).shared.serial.toNat = (zones n).shared.serial.toNat + 1 ∧
    ∀ other, other ≠ n → (p.publish names o zones).2 other = zones other := by
  simp only [Purge.publish,named] at ok ⊢
  refine ⟨?_,fun other apart => by rw [Function.update_of_ne apart]⟩
  rcases invalidateOutcome (names n) (p.invalidation o) (zones n) with ⟨refused,_⟩ | ⟨_,same,_,_,room⟩
  · exact absurd ok refused
  · rw [Function.update_self,same,(published _ _).serial,serialAdvances room]

/- A request that is not accepted changes neither structure; an accepted one in
a namespace publishes one serial and leaves a task that will sweep it. -/
theorem enqueueAllOrNothing (platform : Platform) (names : Nat → Name) (slot : Option Slot)
    (exiting : Bool) (p : Purge) (o : Outcome) (q : Queue) (zones : Nat → Zone) :
    ((enqueue platform names slot exiting p o q zones).1 ≠ .ok →
      (enqueue platform names slot exiting p o q zones).2 = (q,zones)) ∧
    (q.Valid → (enqueue platform names slot exiting p o q zones).1 = .ok → ∀ n, p.ns = some n →
      ((enqueue platform names slot exiting p o q zones).2.2 n).shared.serial.toNat =
        (zones n).shared.serial.toNat + 1 ∧
      (∀ other, other ≠ n → (enqueue platform names slot exiting p o q zones).2.2 other = zones other) ∧
      let q' := (enqueue platform names slot exiting p o q zones).2.1
      ∃ a t item, q.findPath platform p.cachePath = some a ∧ q'.items t = some item ∧ item.path = a ∧
        item.key = 71 :: (names n).bytes ∧
        (t ∈ q'.pending ∨ (t ∈ q'.active ∧ item.running = true ∧ item.rerun = true))) := by
  refine ⟨enqueueRefused,fun valid ok n named => ?_⟩
  obtain ⟨published,zonesSame,a,t,found,done⟩ := enqueueAccepted valid.toCatalog ok
  have key : p.indexKey names = 71 :: (names n).bytes := by simp [Purge.indexKey,named]
  obtain ⟨serial,others⟩ := publishSerial named published
  refine ⟨by rw [zonesSame,serial],fun other apart => by rw [zonesSame,others other apart],a,t,?_⟩
  rcases done with ⟨item,here,path,same,change,_⟩ | ⟨change,_⟩
  · cases change with
    | renew _ there pending active _ _ items _ =>
    cases Option.some.inj (here.symm.trans there)
    have carries := renewCarries p item
    refine ⟨p.renew item,found,by rw [items,Function.update_self],carries.path.trans path,
      carries.key.trans (same.trans key),?_⟩
    rw [pending,active]
    rcases cellListed valid here with waiting | held
    · exact .inl waiting
    · have running := (valid.flags t item here).mpr held
      exact .inr ⟨held,(renewRunning p item).trans running,by simp [Purge.renew,running]⟩
  · cases change with
    | accept _ _ _ _ _ _ pending _ _ _ items _ =>
    exact ⟨p.item names a,found,by rw [items,Function.update_self],rfl,key,.inl (by simp [pending])⟩

end enqueue

section recovery
variable {slot : Option Slot} {alive : Pid → Bool} {now : UInt64}

theorem recoverCharged {q : Queue} {t : TaskId} {rest : List TaskId} {item : Item} {item' : Item}
    (here : q.items t = some item) : Charged slot q (.requeue t item')
      ((((({({q with active := rest}.modify t (Item.requeue now)).pushPending t with
        running := q.running - 1, size := q.size + 1} : Queue).statAdd slot item.path .finished 1).statAdd slot
        item.path .enqueued 1).statAdd slot item.path .enqueuedFull (if item.purgeAll then 1 else 0))) := by
  cases slot with
  | none => exact chargedNothing (by simp [Queue.ledger]) fun k _ => slotlessFree k
  | some slot =>
    refine chargedBy [⟨⟨item.path,slot,.finished⟩,1⟩,⟨⟨item.path,slot,.enqueued⟩,1⟩,
      ⟨⟨item.path,slot,.enqueuedFull⟩,if item.purgeAll then 1 else 0⟩] (by simp [Queue.ledger]) fun k counted => ?_
    obtain ⟨b,i,field⟩ := k
    cases field <;> simp [Metric.counted] at counted ⊢ <;>
      simp [Act.bill,Act.item,here,Act.charge,Act.enters,Act.starts,Act.stops,and_comm]

theorem recoverOneChange (q : Queue) :
    ((recoverOne slot alive now q).2 = none ∧ Accounted slot q .shuffle (recoverOne slot alive now q).1) ∨
    ∃ t item, q.items t = some item ∧ t ∈ q.active ∧ ownerAlive alive q item = false ∧
      (recoverOne slot alive now q).2 = some (item.holder,t) ∧
      Accounted slot q (.requeue t (item.requeue now)) (recoverOne slot alive now q).1 := by
  have same : Accounted slot q .shuffle q :=
    ⟨.shuffle ⟨rfl,rfl,fun _ => rfl,rfl,rfl,rfl⟩ (.refl _) (.refl _) rfl rfl rfl fun _ => rfl,chargedShuffle rfl⟩
  unfold recoverOne
  split
  · exact .inl ⟨rfl,same⟩
  · rename_i t rest listed
    split
    · exact .inl ⟨rfl,same⟩
    · rename_i item here
      split
      · left
        refine ⟨rfl,.shuffle ⟨rfl,rfl,fun _ => rfl,rfl,rfl,rfl⟩ (.refl _) ?_ rfl rfl rfl fun _ => rfl,
          chargedShuffle rfl⟩
        rw [listed]
        exact List.perm_append_singleton t rest
      · rename_i dead
        refine .inr ⟨t,item,here,by simp [listed],by simpa using dead,rfl,?_,recoverCharged here⟩
        exact .requeue ⟨by simp [Queue.modify],by simp [Queue.modify],by simp [Queue.modify],
          by simp [Queue.modify],by simp [Queue.modify],by simp [Queue.modify]⟩ here (requeueCarries now item)
          (requeueRunning now item) (by simp [Queue.modify]) (by simp [Queue.modify,listed])
          (by simp [Queue.modify]) (by simp [Queue.modify]) (by simp [Queue.modify,here])
          (by simp [Queue.modify])

theorem recoverInvariant {P : List (Owner × TaskId) → Queue → Prop}
    (kept : ∀ past q, P past q → P (past ++ (recoverOne slot alive now q).2.toList)
      (recoverOne slot alive now q).1) {past : List (Owner × TaskId)} {q : Queue} (start : P past q)
    (locked : Bool) : P (past ++ (recover slot alive now locked q).2) (recover slot alive now locked q).1 := by
  have loop (n : Nat) {past : List (Owner × TaskId)} {q : Queue} (start : P past q) :
      P (past ++ (recoverLoop slot alive now n q).2) (recoverLoop slot alive now n q).1 := by
    induction n generalizing past q with
    | zero => simpa [recoverLoop] using start
    | succ n ih =>
      have next := ih (kept past q start)
      rwa [List.append_assoc] at next
  unfold recover
  split
  · simpa using start
  · exact loop _ start

end recovery

section passes
variable {slot : Slot} {now : UInt64} {t : TaskId} {item : Item}

theorem selectReadyPerm (items : TaskId → Option Item) (now : UInt64) (n : Nat) (pending : List TaskId) :
    pending.Perm ((selectReady items now n pending).1.toList ++ (selectReady items now n pending).2) := by
  induction n generalizing pending with
  | zero => exact .refl _
  | succ n ih =>
    cases pending with
    | nil => exact .refl _
    | cons t rest =>
      unfold selectReady
      split
      · exact .refl _
      · exact (List.perm_append_singleton t rest).symm.trans (ih (rest ++ [t]))

variable {names : Nat → Name} {namespaces : List Nat} {pid : Pid} {q : Queue} {w : Work}

theorem beginFields {poolFound : Bool} {root : Bytes} :
    let next := w.begin names namespaces poolFound t item root
    next.item = some t ∧ next.root = root ∧ next.protection = item.protection ∧ next.counters = ⟨0,0,0,0⟩ ∧
      next.active = w.active := by
  intro next
  unfold next Work.begin
  dsimp only
  split
  · split <;> exact ⟨rfl,rfl,rfl,rfl,rfl⟩
  · exact ⟨rfl,rfl,rfl,rfl,rfl⟩

theorem beginHolds {poolFound : Bool} {root : Bytes} :
    (w.begin names namespaces poolFound t item root).item = some t := beginFields.1

theorem beginComplete {poolFound : Bool} {root : Bytes} :
    (w.begin names namespaces poolFound t item root).complete = true ↔ item.abandoned names namespaces := by
  unfold Work.begin Item.abandoned
  dsimp only
  rw [← Item.selector]
  split
  · rename_i named
    have own : item.key.head? = some 71 := beq_iff_eq.mp named
    split
    · rename_i n found
      have same : (names n).bytes = item.selector := by simpa using List.find?_some found
      simp only [Bool.false_eq_true,false_iff]
      exact fun lost => lost.2 n (List.mem_of_find?_eq_some found) same
    · rename_i missing
      refine iff_of_true rfl ⟨own,fun n member same => ?_⟩
      exact List.find?_eq_none.mp missing n member (beq_iff_eq.mpr same)
  · rename_i other
    simp only [Bool.false_eq_true,false_iff]
    exact fun lost => other (beq_iff_eq.mpr lost.1)

theorem startTaskPending {rest : List TaskId} : (startTask pid slot t item rest q).pending = rest := by
  unfold startTask
  dsimp only
  split <;> simp [Queue.modify]

theorem startTaskChange {rest : List TaskId} (here : q.items t = some item)
    (taken : q.pending.Perm (t :: rest)) :
    Change q (.start t ⟨pid,slot,q.epochs slot⟩) (startTask pid slot t item rest q) := by
  refine .start ⟨?_,?_,?_,?_,?_,?_⟩ here (by rw [startTaskPending]; exact taken) ?_ ?_ ?_ ?_ ?_
  all_goals
    unfold startTask
    dsimp only
    split <;> simp [Queue.modify,here]

theorem startTaskCharged {rest : List TaskId} {owner : Owner} (here : q.items t = some item) :
    Charged (some slot) q (.start t owner) (startTask pid slot t item rest q) := by
  refine chargedBy [⟨⟨item.path,slot,.started⟩,1⟩,
    ⟨⟨item.path,slot,.startedFull⟩,if item.purgeAll then 1 else 0⟩] ?_ fun k counted => ?_
  · unfold startTask
    dsimp only
    split <;> simp [Queue.ledger]
  · obtain ⟨b,i,field⟩ := k
    cases field <;> simp [Metric.counted] at counted ⊢ <;>
      simp [Act.bill,Act.item,here,Act.charge,Act.enters,Act.starts,Act.stops,and_comm]

/- The ways to take a task: there is none to take, the list is turned past tasks that wait
for their time, or the pass of the first that is ready begins. -/
inductive Taken (names : Nat → Name) (namespaces : List Nat) (pid : Pid) (slot : Slot) (leaving : Bool) (now : UInt64)
    (poolFound : Bool) (q : Queue) (w : Work) : Option Rc × Queue × Work → Prop where
  | idle {rc : Rc} (code : rc = .ok ∨ rc = .busy) :
      Taken names namespaces pid slot leaving now poolFound q w (some rc,q,w)
  | turned {pending : List TaskId} (selected : selectReady q.items now (min q.size walkEntries) q.pending = (none,pending)) :
      Taken names namespaces pid slot leaving now poolFound q w (some .busy,{q with pending := pending},w)
  | started {t : TaskId} {item : Item} {rest : List TaskId} (staying : leaving = false)
      (selected : selectReady q.items now (min q.size walkEntries) q.pending = (some t,rest))
      (here : q.items t = some item) :
      Taken names namespaces pid slot leaving now poolFound q w (none,startTask pid slot t item rest q,
        w.begin names namespaces poolFound t item (q.path item.path).name)

theorem takeCases (leaving locked poolFound : Bool) : Taken names namespaces pid slot leaving now poolFound q w
    (takeTask names namespaces pid slot leaving now locked poolFound q w) := by
  unfold takeTask
  split
  · exact .idle (.inl rfl)
  rename_i staying
  split
  · exact .idle (.inr rfl)
  split
  · exact .idle (.inl rfl)
  split
  · rename_i selected
    exact .turned selected
  · rename_i selected
    split
    · exact .idle (.inr rfl)
    · rename_i here
      exact .started (by simpa using staying) selected here

theorem takeOutcome {leaving locked poolFound : Bool} :
    let outcome := takeTask names namespaces pid slot leaving now locked poolFound q w
    (outcome.2.2 = w ∧ Accounted (some slot) q .shuffle outcome.2.1) ∨
    ∃ t item, q.items t = some item ∧ t ∈ q.pending ∧
      outcome.2.2 = w.begin names namespaces poolFound t item (q.path item.path).name ∧
      Accounted (some slot) q (.start t ⟨pid,slot,q.epochs slot⟩) outcome.2.1 := by
  have same : Accounted (some slot) q .shuffle q :=
    ⟨.shuffle ⟨rfl,rfl,fun _ => rfl,rfl,rfl,rfl⟩ (.refl _) (.refl _) rfl rfl rfl fun _ => rfl,chargedShuffle rfl⟩
  have perm := selectReadyPerm q.items now (min q.size walkEntries) q.pending
  dsimp only
  have ways := @takeCases slot now names namespaces pid q w leaving locked poolFound
  generalize takeTask names namespaces pid slot leaving now locked poolFound q w = taken at ways ⊢
  cases ways with
  | idle code => exact .inl ⟨rfl,same⟩
  | turned selected =>
    rw [selected] at perm
    exact .inl ⟨rfl,.shuffle ⟨rfl,rfl,fun _ => rfl,rfl,rfl,rfl⟩ perm.symm (.refl _) rfl rfl rfl fun _ => rfl,
      chargedShuffle rfl⟩
  | @started t item rest staying selected here =>
    rw [selected] at perm
    exact .inr ⟨t,item,here,perm.mem_iff.mpr List.mem_cons_self,rfl,startTaskChange here perm,startTaskCharged here⟩

structure Settled (t : TaskId) (item : Item) (q q' : Queue) : Prop where
  ledger : ∃ bookings, q'.ledger = bookings.foldl (Booking.enter counterMax) q.ledger ∧
    ∀ k : Account, k.field.counted = true → due bookings k = 0
  frame : q.Frame q'
  items : ∃ retries at_, q'.items =
    Function.update q.items t (some {item with retries := retries, retryAt := at_})
  pending : q'.pending = q.pending
  active : q'.active = q.active
  size : q'.size = q.size
  running : q'.running = q.running
  index : ∀ a, (q'.path a).index = (q.path a).index

/- What becomes of a task at the end of its pass: it is passed over again at once, it is
tried again after a delay, it is given up, or it is done. -/
inductive Settling (slot : Slot) (now : UInt64) (t : TaskId) (item : Item) (w : Work) (q : Queue) : Bool × Queue → Prop where
  | again (asked : item.rerun = true ∨ w.complete = false) :
      Settling slot now t item w q (true,q.modify t fun item => {item with retries := 0, retryAt := 0})
  | retried (once : item.rerun = false) (whole : w.complete = true)
      (errors : w.counters.scanErrors ≠ 0 ∨ w.counters.deleteErrors ≠ 0) (few : item.retries < 3) :
      Settling slot now t item w q (true,(q.modify t fun item => {item with
        retryAt := now + retryDelay item.retries
        retries := item.retries + 1}).statAdd (some slot) item.path .retried 1)
  | exhausted (once : item.rerun = false) (whole : w.complete = true)
      (errors : w.counters.scanErrors ≠ 0 ∨ w.counters.deleteErrors ≠ 0) (many : 3 ≤ item.retries) :
      Settling slot now t item w q (false,q.statAdd (some slot) item.path .exhausted 1)
  | done (once : item.rerun = false) (whole : w.complete = true)
      (clean : w.counters.scanErrors = 0 ∧ w.counters.deleteErrors = 0) : Settling slot now t item w q (false,q)

theorem settleCases : Settling slot now t item w q (settleTask slot now t item w q) := by
  unfold settleTask
  dsimp only
  split
  · rename_i asked
    exact .again (by simpa using asked)
  rename_i steady
  obtain ⟨once,whole⟩ : item.rerun = false ∧ w.complete = true := by simpa using steady
  split
  · rename_i retry
    obtain ⟨errors,few⟩ := Bool.and_eq_true_iff.mp retry
    exact .retried once whole (by simpa using errors) (by simpa using few)
  rename_i last
  split
  · rename_i errors
    simp only [errors,Bool.true_and,decide_eq_true_eq,not_lt] at last
    exact .exhausted once whole (by simpa using errors) last
  · rename_i clean
    exact .done once whole (by simpa using clean)

theorem settleTaskSpec (here : q.items t = some item) :
    Settled t item q (settleTask slot now t item w q).2 ∧
    ((settleTask slot now t item w q).1 = false → item.rerun = false ∧ w.complete = true) := by
  have kept : Function.update q.items t (some item) = q.items := by
    rw [← here,Function.update_eq_self]
  have apart (field : Metric) (other : field.counted = false) (k : Account) (counted : k.field.counted = true) :
      due [⟨⟨item.path,slot,field⟩,1⟩] k = 0 := by
    obtain ⟨b,i,f⟩ := k
    rw [dueCons,dueNil,if_neg fun same => ?_]
    rw [← congrArg Account.field same,other] at counted
    contradiction
  have ways := @settleCases slot now t item q w
  generalize settleTask slot now t item w q = settled at ways ⊢
  cases ways with
  | again asked =>
    exact ⟨⟨⟨[],rfl,fun _ _ => rfl⟩,⟨rfl,rfl,fun _ => rfl,rfl,rfl,rfl⟩,⟨_,_,modifyItems t q _ here⟩,rfl,rfl,rfl,rfl,
      fun _ => rfl⟩,by simp⟩
  | retried once whole errors few =>
    refine ⟨⟨⟨_,?_,apart .retried rfl⟩,⟨?_,?_,?_,?_,?_,?_⟩,
      ⟨item.retries + 1,now + retryDelay item.retries,?_⟩,?_,?_,?_,?_,?_⟩,by simp⟩ <;>
      simp [Queue.modify,here,Queue.ledger]
  | exhausted once whole errors many =>
    refine ⟨⟨⟨_,?_,apart .exhausted rfl⟩,⟨?_,?_,?_,?_,?_,?_⟩,⟨item.retries,item.retryAt,?_⟩,?_,?_,?_,?_,?_⟩,
      fun _ => ⟨once,whole⟩⟩ <;> simp [kept,Queue.ledger]
  | done once whole clean =>
    exact ⟨⟨⟨[],rfl,fun _ _ => rfl⟩,⟨rfl,rfl,fun _ => rfl,rfl,rfl,rfl⟩,⟨item.retries,item.retryAt,kept.symm⟩,rfl,rfl,rfl,
      rfl,fun _ => rfl⟩,fun _ => ⟨once,whole⟩⟩

def endBookings (slot : Slot) (item : Item) (w : Work) : List (Booking Account) :=
  [⟨⟨item.path,slot,.finished⟩,1⟩,⟨⟨item.path,slot,.deleted⟩,w.counters.filesDeleted.toNat⟩,
    ⟨⟨item.path,slot,.deleteErrors⟩,w.counters.deleteErrors.toNat⟩,
    ⟨⟨item.path,slot,.scanErrors⟩,w.counters.scanErrors.toNat⟩,
    ⟨⟨item.path,slot,.deletedBytes⟩,w.counters.bytesDeleted.toNat⟩]

theorem endTaskCharged (here : q.items t = some item) {item' : Item} :
    Charged (some slot) q
      (if (settleTask slot now t item w q).1 then .requeue t item' else .retire t)
      (endTask slot now t item w q) := by
  obtain ⟨⟨bookings,ledger,apart⟩,_⟩ := (@settleTaskSpec slot now t item q w here).1
  change ledgerOf (settleTask slot now t item w q).2.path = _ at ledger
  split
  · rename_i again
    refine chargedBy (bookings ++ (endBookings slot item w ++ [⟨⟨item.path,slot,.enqueued⟩,1⟩,
      ⟨⟨item.path,slot,.enqueuedFull⟩,if item.purgeAll then 1 else 0⟩])) ?_ fun k counted => ?_
    · rw [List.foldl_append,← ledger]
      simp [endTask,again,Queue.ledger,endBookings]
    · rw [dueAppend,apart k counted]
      obtain ⟨b,i,field⟩ := k
      cases field <;> simp [Metric.counted] at counted ⊢ <;>
        simp [endBookings,Act.bill,Act.item,here,Act.charge,Act.enters,Act.starts,Act.stops,and_comm]
  · rename_i again
    refine chargedBy (bookings ++ endBookings slot item w) ?_ fun k counted => ?_
    · rw [List.foldl_append,← ledger]
      simp [endTask,again,Queue.ledger,endBookings]
    · rw [dueAppend,apart k counted]
      obtain ⟨b,i,field⟩ := k
      cases field <;> simp [Metric.counted] at counted ⊢ <;>
        simp [endBookings,Act.bill,Act.item,here,Act.charge,Act.enters,Act.starts,Act.stops,and_comm]

theorem endTaskChange (here : q.items t = some item) (held : t ∈ q.active) :
    (∃ item', Accounted (some slot) q (.requeue t item') (endTask slot now t item w q)) ∨
    (item.rerun = false ∧ w.complete = true ∧ Accounted (some slot) q (.retire t) (endTask slot now t item w q)) := by
  obtain ⟨settled,steady⟩ := @settleTaskSpec slot now t item q w here
  obtain ⟨retries,at_,items⟩ := settled.items
  have taken : q.active.Perm (t :: q.active.erase t) := List.perm_cons_erase held
  cases again : (settleTask slot now t item w q).1 with
  | true =>
    refine .inl ⟨({item with retries := retries, retryAt := at_} : Item).requeue now,?_,by
      simpa [again] using @endTaskCharged slot now t item q w here _⟩
    refine .requeue ⟨?_,?_,?_,?_,?_,?_⟩ here ?_ (requeueRunning now _) ?_ ?_ ?_ ?_ ?_ ?_
    · simp [endTask,again,Queue.modify,settled.frame.maxSize]
    · simp [endTask,again,Queue.modify,settled.frame.paths]
    · simp [endTask,again,Queue.modify,settled.frame.names]
    · simp [endTask,again,Queue.modify,settled.frame.owners]
    · simp [endTask,again,Queue.modify,settled.frame.epochs]
    · simp [endTask,again,Queue.modify,settled.frame.probes]
    · have carries := requeueCarries now ({item with retries := retries, retryAt := at_} : Item)
      exact ⟨carries.key,carries.path,carries.purgeAll,carries.poolName⟩
    · simp [endTask,again,Queue.modify,settled.pending]
    · simpa [endTask,again,Queue.modify,settled.active] using taken
    · simp [endTask,again,Queue.modify,settled.size]
    · simp [endTask,again,Queue.modify,settled.running]
    · simp [endTask,again,Queue.modify,items]
    · simp [endTask,again,Queue.modify,settled.index]
  | false =>
    refine .inr ⟨(steady again).1,(steady again).2,?_,by
      simpa [again] using @endTaskCharged slot now t item q w here item⟩
    refine .retire ⟨?_,?_,?_,?_,?_,?_⟩ here ?_ ?_ ?_ ?_ ?_ ?_
    · simp [endTask,again,Queue.modifyPath,Queue.free,settled.frame.maxSize]
    · simp [endTask,again,Queue.modifyPath,Queue.free,settled.frame.paths]
    · intro a
      rcases eq_or_ne a item.path with rfl | other <;>
        simp_all [endTask,Queue.modifyPath,Queue.free,settled.frame.names]
    · simp [endTask,again,Queue.modifyPath,Queue.free,settled.frame.owners]
    · simp [endTask,again,Queue.modifyPath,Queue.free,settled.frame.epochs]
    · simp [endTask,again,Queue.modifyPath,Queue.free,settled.frame.probes]
    · simp [endTask,again,Queue.modifyPath,Queue.free,settled.pending]
    · simpa [endTask,again,Queue.modifyPath,Queue.free,settled.active] using taken
    · simp [endTask,again,Queue.modifyPath,Queue.free,settled.size]
    · simp [endTask,again,Queue.modifyPath,Queue.free,settled.running]
    · simp [endTask,again,Queue.modifyPath,Queue.free,items]
    · intro a
      rcases eq_or_ne a item.path with rfl | other <;>
        simp_all [endTask,Queue.modifyPath,Queue.free,settled.index]

end passes

theorem initQueueValid (maxSize : Nat) (paths : List (Nat × Bytes)) : (queueInit maxSize paths).Valid := by
  refine ⟨⟨?_,?_,?_,?_⟩,rfl,rfl,?_,?_,?_,?_⟩ <;> simp [queueInit]

def sitePurge : Purge := ⟨true,[47,99],some 0,[47,97],false,none,[],[],0⟩

theorem enqueueSweeps :
    let q' := (enqueue posix (fun _ => siteName) (some 0) false sitePurge ⟨true,true,some 5,[some 8,some 9]⟩
      (queueInit 4 [(1,[47,99])]) fun _ => generationInit siteEpoch).2.1
    ∃ a t item, (queueInit 4 [(1,[47,99])]).findPath posix sitePurge.cachePath = some a ∧
      q'.items t = some item ∧ item.path = a ∧ item.key = 71 :: siteName.bytes ∧
      (t ∈ q'.pending ∨ (t ∈ q'.active ∧ item.running = true ∧ item.rerun = true)) :=
  ((enqueueAllOrNothing posix (fun _ => siteName) (some 0) false sitePurge
    ⟨true,true,some 5,[some 8,some 9]⟩ (queueInit 4 [(1,[47,99])]) fun _ => generationInit siteEpoch).2
    (initQueueValid _ _) (by decide) 0 rfl).2.2

end CachePurge
