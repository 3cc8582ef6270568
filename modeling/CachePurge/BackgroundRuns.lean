import CachePurge.Background
import CachePurge.WorkerOthers

/-! One executor for each worker: in every run of its event loop, among any other
processes, either its timer waits or its thread task does, and every pass it starts
it ends and counts once. -/
namespace CachePurge
open General

namespace BackgroundOutput

def begun : BackgroundOutput → Option TaskId
  | .started t => some t
  | _ => none

def finished : BackgroundOutput → Option TaskId
  | .ended t _ _ => some t
  | _ => none

def bookings (slot : Slot) : BackgroundOutput → List (Booking Account)
  | .ended _ a c => passBookings slot a c
  | _ => []

def report (c : Counters) : BackgroundOutput → Counters
  | .started _ => ⟨0,0,0,0⟩
  | .walked _ c' | .ran c' => c'
  | .closed errors => {c with scanErrors := c.scanErrors + errors}
  | _ => c

end BackgroundOutput

def reported (past : List BackgroundOutput) : Counters := past.foldl BackgroundOutput.report ⟨0,0,0,0⟩

def Honest (past : List BackgroundOutput) : BackgroundOutput → Prop
  | .walked inFlight _ => inFlight = false
  | .ended _ _ c => c = reported past
  | _ => True

/- The worker in its run: the other processes leave it alone, and its passes are
begun, ended and counted one by one. -/
structure Looping (config : Config) (pid : Pid) (slot : Slot) (start : System) (past : List BackgroundOutput)
    (s : System) (p : Process) : Prop where
  reached : ∃ events, s = (systemMachine config).after start events
  valid : s.Valid
  found : s.find pid = some p
  seat : p.slot = slot
  passes : past.filterMap BackgroundOutput.begun = past.filterMap BackgroundOutput.finished ++ p.work.item.toList
  counters : p.work.item.isSome = true → p.work.counters = reported past
  books : ∀ k : Account, k.slot = slot → k.field.walked = true → s.queue.ledger k =
    min (start.queue.ledger k + due (past.flatMap (BackgroundOutput.bookings slot)) k) counterMax
  honest : Witnessed Honest [] past

section loops
variable {config : Config} {pid : Pid} {slot : Slot} {start s : System} {past : List BackgroundOutput} {p : Process}

theorem unwalkedBooks {q q' : Queue} (same : Unwalked q q') {k : Account} (walked : k.field.walked = true) :
    q'.ledger k = min (q.ledger k + due [] k) counterMax := by
  rw [same k walked]
  exact (min_eq_left (ledgerBelow q.path k)).symm

theorem reportedAppend (past out : List BackgroundOutput) :
    reported (past ++ out) = out.foldl BackgroundOutput.report (reported past) := List.foldl_append

theorem loopingStart {threaded : Bool} {namespaces : List Nat} (valid : s.Valid)
    (found : s.find pid = some ⟨pid,slot,false,false,.idle threaded,namespaces⟩) :
    Looping config pid slot s [] s ⟨pid,slot,false,false,.idle threaded,namespaces⟩ :=
  ⟨⟨[],rfl⟩,valid,found,rfl,rfl,by simp [Work.idle],fun _ _ walked => unwalkedBooks (fun _ _ => rfl) walked,
    witnessedNil []⟩

theorem loopingOther (looping : Looping config pid slot start past s p) {e : WorkerEvent} (apart : e.pid ≠ pid) :
    Looping config pid slot start past (s.step config e).1 p := by
  obtain ⟨events,same⟩ := looping.reached
  refine ⟨⟨events ++ [e],?_⟩,stepKeepsValid looping.valid e,(otherFind apart).trans looping.found,looping.seat,
    looping.passes,looping.counters,fun k here walked => ?_,looping.honest⟩
  · rw [(systemMachine config).afterLast,← same]
    rfl
  · rw [otherLedger looping.valid looping.found apart (here.trans looping.seat.symm) walked]
    exact looping.books k here walked

theorem loopingOthers {b : Background} (looping : Looping config pid slot start past b.system p)
    (events : List WorkerEvent) : Looping config pid slot start past (b.others config pid events).system p := by
  change Looping config pid slot start past
    ((events.filter fun e => e.pid != pid).foldl (fun s e => (s.step config e).1) b.system) p
  generalize b.system = s at looping ⊢
  induction events generalizing s with
  | nil => exact looping
  | cons e rest ih =>
    rw [List.filter_cons]
    split
    · rename_i other
      exact ih _ (loopingOther looping (by simpa using other))
    · exact ih _ looping

theorem loopingOwn (looping : Looping config pid slot start past s p) {e : WorkerEvent} {p' : Process}
    {out : List BackgroundOutput} (found : (s.step config e).1.find pid = some p') (seat : p'.slot = p.slot)
    (passes : p.work.item.toList ++ out.filterMap BackgroundOutput.begun =
      out.filterMap BackgroundOutput.finished ++ p'.work.item.toList)
    (counters : p'.work.item.isSome = true → p'.work.counters = reported (past ++ out))
    (books : ∀ k : Account, k.slot = slot → k.field.walked = true → (s.step config e).1.queue.ledger k =
      min (s.queue.ledger k + due (out.flatMap (BackgroundOutput.bookings slot)) k) counterMax)
    (honest : Witnessed Honest past out) : Looping config pid slot start (past ++ out) (s.step config e).1 p' := by
  obtain ⟨events,same⟩ := looping.reached
  refine ⟨⟨events ++ [e],?_⟩,stepKeepsValid looping.valid e,found,seat.trans looping.seat,?_,counters,
    fun k here walked => ?_,witnessedAppend looping.honest honest⟩
  · rw [(systemMachine config).afterLast,← same]
    rfl
  · rw [List.filterMap_append,List.filterMap_append,looping.passes,List.append_assoc,passes,List.append_assoc]
  · rw [books k here walked,looping.books k here walked,List.flatMap_append,dueAppend]
    omega

theorem loopingQuiet (looping : Looping config pid slot start past s p) {e : WorkerEvent} {p' : Process}
    (found : (s.step config e).1.find pid = some p') (seat : p'.slot = p.slot) (item : p'.work.item = p.work.item)
    (counters : p'.work.counters = p.work.counters)
    (books : Unwalked s.queue (s.step config e).1.queue) :
    Looping config pid slot start past (s.step config e).1 p' := by
  have next := @loopingOwn config pid slot start s past p looping e p' [] found seat (by simp [item])
    (fun held => by rw [List.append_nil,counters]; exact looping.counters (item ▸ held))
    (fun _ _ walked => unwalkedBooks books walked) (witnessedNil past)
  rwa [List.append_nil] at next

end loops

/- What a part of a call leaves of the worker. -/
structure Onward (config : Config) (pid : Pid) (slot : Slot) (start : System) (past : List BackgroundOutput)
    (b : Background) (p : Process) (out : List BackgroundOutput) (b' : Background) (p' : Process) : Prop where
  looping : Looping config pid slot start (past ++ out) b'.system p'
  leaving : p'.leaving = p.leaving
  exited : p'.exited = p.exited
  timer : b'.timer = b.timer
  task : b'.taskTimer = p'.work.active
  idle : p.leaving = true → ∀ t, .started t ∉ out

section parts
variable {config : Config} {pid : Pid} {slot : Slot} {start : System} {past : List BackgroundOutput}
  {b : Background} {p : Process} {a : Iteration}

theorem onwardTrans {out out' : List BackgroundOutput} {b₁ b₂ : Background} {p₁ p₂ : Process}
    (left : Onward config pid slot start past b p out b₁ p₁)
    (right : Onward config pid slot start (past ++ out) b₁ p₁ out' b₂ p₂) :
    Onward config pid slot start past b p (out ++ out') b₂ p₂ := by
  refine ⟨by rw [← List.append_assoc]; exact right.looping,right.leaving.trans left.leaving,
    right.exited.trans left.exited,right.timer.trans left.timer,right.task,fun leaving t member => ?_⟩
  rcases List.mem_append.mp member with first | second
  · exact left.idle leaving t first
  · exact right.idle (left.leaving.trans leaving) t second

theorem onwardSame (looping : Looping config pid slot start past b.system p) (task : b.taskTimer = p.work.active) :
    Onward config pid slot start past b p [] b p :=
  ⟨by rw [List.append_nil]; exact looping,rfl,rfl,rfl,task,by simp⟩

theorem takeCodes {names : Nat → Name} {namespaces : List Nat} {pid : Pid} {slot : Slot} {leaving locked poolFound : Bool}
    {now : UInt64} {q : Queue} {w : Work} :
    let outcome := takeTask names namespaces pid slot leaving now locked poolFound q w
    (outcome.1 = none ∧ leaving = false ∧ ∃ t item root, outcome.2.2 = w.begin names namespaces poolFound t item root) ∨
    ((outcome.1 = some .ok ∨ outcome.1 = some .busy) ∧ outcome.2.2 = w) := by
  dsimp only
  have ways := @takeCases slot now names namespaces pid q w leaving locked poolFound
  generalize takeTask names namespaces pid slot leaving now locked poolFound q w = taken at ways ⊢
  cases ways with
  | idle code => exact .inr ⟨code.imp (congrArg some) (congrArg some),rfl⟩
  | turned selected => exact .inr ⟨.inr rfl,rfl⟩
  | started staying selected here => exact .inl ⟨rfl,staying,_,_,_,rfl⟩

variable (looping : Looping config pid slot start past b.system p) (running : p.exited = false)
  (idle : p.work.active = false) (task : b.taskTimer = p.work.active)
include looping running idle task

theorem takeOnward : ∃ p', Onward config pid slot start past b p (takePart config a p b).out (takePart config a p b).state p' ∧
    p'.work.active = false ∧ ((takePart config a p b).rc = none → p'.work.item.isSome = true) ∧
    (takePart config a p b).rc ≠ some .done := by
  obtain ⟨_,here⟩ := findMember looping.found
  unfold takePart
  split
  · rename_i held
    exact ⟨p,onwardSame looping task,idle,fun _ => held,by simp⟩
  rename_i empty
  have empty : p.work.item = none := by simpa using empty
  have found := looping.found
  subst here
  -- The section is a step of the worker among the others.
  let e : WorkerEvent := .take p.pid a.now a.locked a.poolFound
  let w := (takeTask config.names p.namespaces p.pid p.slot p.leaving a.now a.locked a.poolFound
    b.system.queue p.work).2.2
  have step : (b.system.step config e).1 = {b.system with queue := (takeTask config.names p.namespaces p.pid p.slot
      p.leaving a.now a.locked a.poolFound b.system.queue p.work).2.1}.setWork p.pid w := by
    simp [System.step,e,WorkerEvent.pid,found,running,processStep,takeStep,empty,w]
  have found' : (b.system.step config e).1.find p.pid = some {p with work := w} := by
    rw [step]
    exact @setWorkSelf {b.system with queue := _} p.pid p found w
  have books : Unwalked b.system.queue (b.system.step config e).1.queue := by
    rw [step]
    exact takeUnwalked
  dsimp only
  rw [← step]
  rcases @takeCodes config.names p.namespaces p.pid p.slot p.leaving a.locked a.poolFound a.now
    b.system.queue p.work with ⟨code,staying,t,item,root,work⟩ | ⟨code,work⟩
  · obtain ⟨item_,_,_,zero,active⟩ := @beginFields t item config.names p.namespaces p.work a.poolFound root
    have work : w = p.work.begin config.names p.namespaces a.poolFound t item root := work
    have begun : w.item = some t := by rw [work]; exact item_
    have calm : w.active = p.work.active := by rw [work]; exact active
    refine ⟨{p with work := w},⟨?_,rfl,rfl,rfl,task.trans calm.symm,by simp [staying]⟩,calm.trans idle,
      fun _ => by simp [begun],by rw [code]; simp⟩
    change Looping _ _ _ _ (past ++ w.item.toList.map .started) _ _
    rw [begun]
    refine loopingOwn looping found' rfl (by simp [empty,begun,BackgroundOutput.begun,BackgroundOutput.finished])
      (fun _ => ?_) (fun _ _ walked => unwalkedBooks books walked) (witnessedSingle trivial)
    rw [reportedAppend]
    exact (congrArg Work.counters work).trans zero
  · have work : w = p.work := work
    have silent : w.item.toList.map BackgroundOutput.started = [] := by rw [work,empty]; rfl
    refine ⟨p,⟨?_,rfl,rfl,rfl,task,?_⟩,idle,?_,?_⟩
    · change Looping _ _ _ _ (past ++ w.item.toList.map .started) _ _
      rw [silent,List.append_nil]
      rw [work] at found'
      exact loopingQuiet looping found' rfl rfl rfl books
    · change p.leaving = true → ∀ t, BackgroundOutput.started t ∉ w.item.toList.map BackgroundOutput.started
      rw [silent]
      simp
    · rcases code with ok | busy
      · simp [ok]
      · simp [busy]
    · rcases code with ok | busy
      · simp [ok]
      · simp [busy]

theorem walkOnward (held : p.work.item.isSome = true) : ∃ p',
    Onward config pid slot start past b p (walkPart a p b).out (walkPart a p b).state p' ∧
    ((walkPart a p b).rc = some .done ↔ p'.work.active = true) ∧
    ((walkPart a p b).rc = none → p'.work.item.isSome = true ∧ p'.work.complete = true) := by
  obtain ⟨_,here⟩ := findMember looping.found
  obtain ⟨t,holds⟩ := Option.isSome_iff_exists.mp held
  have found := looping.found
  subst here
  unfold walkPart
  split
  · rename_i pooled
    simp only [Bool.and_eq_true,Bool.not_eq_true'] at pooled
    let w := (postTask a.posted p.work).2
    have fields : w.item = p.work.item ∧ w.counters = p.work.counters ∧ w.active = a.posted := by
      unfold w postTask
      cases a.posted <;> exact ⟨rfl,rfl,rfl⟩
    obtain ⟨item,counters,active⟩ := fields
    have step : (b.system.step config (.post p.pid a.posted)).1 = b.system.setWork p.pid w := by
      simp [System.step,WorkerEvent.pid,found,running,processStep,holds,pooled,idle,w]
    have found' : (b.system.step config (.post p.pid a.posted)).1.find p.pid = some {p with work := w} := by
      rw [step]
      exact setWorkSelf found w
    have books : Unwalked b.system.queue (b.system.step config (.post p.pid a.posted)).1.queue := by
      rw [step]
      exact fun _ _ => rfl
    dsimp only
    refine ⟨{p with work := w},⟨?_,rfl,rfl,rfl,?_,?_⟩,?_,?_⟩
    · change Looping _ _ _ _ _ (b.system.setWork p.pid w) _
      rw [← step,holds]
      rcases Bool.eq_false_or_eq_true a.posted with posted | refused
      · rw [if_pos posted]
        refine loopingOwn looping found' rfl ?_ (fun _ => ?_) (fun _ _ walked => unwalkedBooks books walked)
          (witnessedSingle trivial)
        · change p.work.item.toList ++ [] = [] ++ w.item.toList
          rw [item,List.append_nil,List.nil_append]
        · rw [reportedAppend]
          exact counters.trans (looping.counters held)
      · rw [if_neg (by simp [refused]),List.append_nil]
        exact loopingQuiet looping found' rfl item counters books
    · change (b.taskTimer || a.posted) = w.active
      rw [task,idle,active]
      rfl
    · intro _ t
      cases a.posted <;> simp [holds]
    · change some (postTask a.posted p.work).1 = some .done ↔ w.active = true
      rw [active]
      unfold postTask
      cases a.posted <;> simp
    · simp
  rename_i direct
  simp only [Bool.and_eq_true,Bool.not_eq_true',not_and,Bool.not_eq_false] at direct
  split
  · rename_i complete
    exact ⟨p,onwardSame looping task,by simp [idle],fun _ => ⟨held,complete⟩⟩
  · rename_i open_
    have open_ : p.work.complete = false := by simpa using open_
    let w := sliceTask a.again a.counters p.work
    have step : (b.system.step config (.slice p.pid a.again a.counters)).1 = b.system.setWork p.pid w := by
      have allowed : (!p.work.pool || p.work.started) = true := by
        cases pool : p.work.pool <;> simp_all
      simp [System.step,WorkerEvent.pid,found,running,processStep,holds,allowed,open_,idle,w]
    have found' : (b.system.step config (.slice p.pid a.again a.counters)).1.find p.pid = some {p with work := w} := by
      rw [step]
      exact setWorkSelf found w
    have books : Unwalked b.system.queue (b.system.step config (.slice p.pid a.again a.counters)).1.queue := by
      rw [step]
      exact fun _ _ => rfl
    dsimp only
    refine ⟨{p with work := w},⟨?_,rfl,rfl,rfl,task,by simp⟩,?_,?_⟩
    · change Looping _ _ _ _ _ (b.system.setWork p.pid w) _
      rw [← step]
      refine loopingOwn looping found' rfl ?_ (fun _ => ?_) (fun _ _ walked => unwalkedBooks books walked)
        (witnessedSingle ?_)
      · exact List.append_nil _
      · rw [reportedAppend]
        rfl
      · change (p.work.active && !p.work.finished) = false
        rw [idle]
        rfl
    · change _ ↔ p.work.active = true
      rw [idle]
      split <;> simp
    · intro on
      refine ⟨held,?_⟩
      change (!a.again) = true
      cases again : a.again with
      | false => rfl
      | true => simp [again] at on

omit running idle task in
theorem passEnded {t : TaskId} (holds : p.work.item = some t) : ∃ item, b.system.queue.items t = some item ∧
    passEnd b.system.queue p.work = [.ended t item.path p.work.counters] := by
  obtain ⟨item,here,_⟩ := (looping.valid.holding p (findMember looping.found).1 t holds).holder
  exact ⟨item,here,by simp [passEnd,holds,here]⟩

theorem endOnward (held : p.work.item.isSome = true) (complete : p.work.complete = true) : ∃ p',
    Onward config pid slot start past b p (endPart a p b).out (endPart a p b).state p' ∧
    p'.work.active = false ∧ (endPart a p b).rc ≠ some .done := by
  obtain ⟨_,here⟩ := findMember looping.found
  obtain ⟨t,holds⟩ := Option.isSome_iff_exists.mp held
  have found := looping.found
  subst here
  obtain ⟨item,here,said⟩ := passEnded looping holds
  have step : (b.system.step config (.finish p.pid a.ended a.released)).1 =
      {b.system with queue := (finishTask p.slot false a.ended a.released b.system.queue p.work).2.1}.setWork p.pid
        (finishTask p.slot false a.ended a.released b.system.queue p.work).2.2 := by
    simp [System.step,WorkerEvent.pid,found,running,processStep,finishStep,holds,complete,idle]
  have found' : (b.system.step config (.finish p.pid a.ended a.released)).1.find p.pid =
      some {p with work := (finishTask p.slot false a.ended a.released b.system.queue p.work).2.2} := by
    rw [step]
    exact @setWorkSelf {b.system with queue := _} p.pid p found _
  have books {k : Account} : (b.system.step config (.finish p.pid a.ended a.released)).1.queue.ledger k =
      (finishTask p.slot false a.ended a.released b.system.queue p.work).2.1.ledger k := by
    rw [step]
    rfl
  unfold endPart
  dsimp only
  rw [← step]
  cases released : a.released with
  | false =>
    have same : finishTask p.slot false a.ended false b.system.queue p.work = (.busy,b.system.queue,p.work) := rfl
    rw [released,same] at found' books
    rw [same]
    simp only [holds,Option.isNone_some,Bool.false_eq_true,if_false]
    refine ⟨p,⟨?_,rfl,rfl,rfl,task,by simp⟩,idle,by simp⟩
    rw [List.append_nil]
    exact loopingQuiet looping found' rfl rfl rfl fun k _ => books
  | true =>
    have done : finishTask p.slot false a.ended true b.system.queue p.work =
        (.again,endTask p.slot a.ended t item p.work b.system.queue,p.work.emptied) := by
      simp [finishTask,holds,here]
    rw [released,done] at found' books
    rw [done]
    simp only [Work.emptied,Option.isNone_none,if_true]
    refine ⟨{p with work := p.work.emptied},⟨?_,rfl,rfl,rfl,task,by simp [said]⟩,idle,by simp⟩
    rw [said]
    refine loopingOwn looping found' rfl (by simp [holds,Work.emptied,BackgroundOutput.begun,BackgroundOutput.finished])
      (by simp [Work.emptied]) (fun k here walked => ?_) (witnessedSingle (looping.counters held))
    rw [books,endTaskWalked walked]
    simp [BackgroundOutput.bookings,looping.seat]

omit looping running idle task in
theorem onwardOthers {out : List BackgroundOutput} {b' : Background} {p' : Process}
    (onward : Onward config pid slot start past b p out b' p') (events : List WorkerEvent) :
    Onward config pid slot start past b p out (b'.others config pid events) p' :=
  ⟨loopingOthers onward.looping events,onward.leaving,onward.exited,onward.timer,onward.task,onward.idle⟩

omit looping running idle task in
theorem andThenSome {part : Part} {rc : Rc} (code : part.rc = some rc) (next : Background → Part) :
    part.andThen next = part := by
  simp [Part.andThen,code]

omit looping running idle task in
theorem andThenNone {part : Part} (code : part.rc = none) (next : Background → Part) :
    part.andThen next = ⟨(next part.state).rc,(next part.state).state,part.out ++ (next part.state).out⟩ := by
  simp [Part.andThen,code]

omit running idle task in
theorem ownPart (part : Process → Background → Part) : b.own pid part = part p b := by
  simp [Background.own,looping.found]

theorem walkedOnward {part : Part} (same : part = (b.own pid (takePart config a)).andThen fun b =>
      (b.others config pid a.between).own pid (walkPart a)) : ∃ p', Onward config pid slot start past b p part.out part.state p' ∧
    (part.rc = some .done ↔ p'.work.active = true) ∧
    (part.rc = none → p'.work.item.isSome = true ∧ p'.work.complete = true) := by
  obtain ⟨p₁,taken,idle₁,held,code⟩ := @takeOnward config pid slot start past b p a looping running idle task
  rw [ownPart looping] at same
  cases first : (takePart config a p b).rc with
  | some rc =>
    rw [andThenSome first] at same
    rw [first] at code
    subst same
    exact ⟨p₁,taken,by simp [first,idle₁,code],by simp [first]⟩
  | none =>
    have onward := onwardOthers taken a.between
    obtain ⟨p₂,walked,ends⟩ := @walkOnward config pid slot start _ _ p₁ a onward.looping
      (taken.exited.trans running) idle₁ taken.task (held first)
    rw [andThenNone first,ownPart onward.looping] at same
    subst same
    exact ⟨p₂,onwardTrans onward walked,ends⟩

/- One call of ngx_http_cache_purge_process_queue: it hands the task to a thread, or
the worker is as free as before. -/
theorem queueOnward : ∃ p', Onward config pid slot start past b p (processQueue config pid a b).out
      (processQueue config pid a b).state p' ∧
    ((processQueue config pid a b).rc = some .done ↔ p'.work.active = true) := by
  obtain ⟨p₁,walked,done,complete⟩ := @walkedOnward config pid slot start past b p a looping running idle task _ rfl
  unfold processQueue
  generalize ((b.own pid (takePart config a)).andThen fun b =>
      (b.others config pid a.between).own pid (walkPart a)) = part at walked done complete
  cases code : part.rc with
  | some rc =>
    rw [andThenSome code]
    exact ⟨p₁,walked,done⟩
  | none =>
    obtain ⟨held,whole⟩ := complete code
    have onward := onwardOthers walked a.later
    have idle₁ : p₁.work.active = false := by simpa [code] using done
    obtain ⟨p₂,ended,idle₂,gone⟩ := @endOnward config pid slot start _ _ p₁ a onward.looping
      (walked.exited.trans running) idle₁ walked.task held whole
    rw [andThenNone code,ownPart onward.looping]
    exact ⟨p₂,onwardTrans onward ended,by simp [idle₂,gone]⟩

end parts

section handler
variable {config : Config} {pid : Pid} {slot : Slot} {start : System} {past : List BackgroundOutput}
  {b : Background} {p : Process} {conf : BackgroundConf}

theorem onwardBatch {out : List BackgroundOutput} {b' : Background} {p' : Process}
    (onward : Onward config pid slot start past b p out b' p') (n : Nat) :
    Onward config pid slot start past b p out {b' with batch := n} p' :=
  ⟨onward.looping,onward.leaving,onward.exited,onward.timer,onward.task,onward.idle⟩

theorem drainOnward (begin_ : UInt64) (answers : Nat → Iteration) (i : Nat)
    (looping : Looping config pid slot start past b.system p) (running : p.exited = false)
    (idle : p.work.active = false) (task : b.taskTimer = p.work.active) : ∃ p',
    Onward config pid slot start past b p (drain config pid conf begin_ answers i b).2.2
      (drain config pid conf begin_ answers i b).2.1 p' ∧
    ((drain config pid conf begin_ answers i b).1 = .posted ↔ p'.work.active = true) := by
  have call {i : Nat} {b : Background} {past : List BackgroundOutput} {p : Process}
      (looping : Looping config pid slot start past b.system p) (running : p.exited = false)
      (idle : p.work.active = false) (task : b.taskTimer = p.work.active) :=
    @queueOnward config pid slot start past b p (answers i) looping running idle task
  fun_induction drain config pid conf begin_ answers i b generalizing past p with
  | case1 i b part =>
    rename_i code
    obtain ⟨p',onward,done⟩ := call looping running idle task
    exact ⟨p',onward,iff_of_true rfl (done.mp code)⟩
  | case2 i b part =>
    rename_i code
    obtain ⟨p',onward,done⟩ := call looping running idle task
    refine ⟨p',onwardBatch onward 0,iff_of_false (fun same => Exit.noConfusion same) fun active => ?_⟩
    exact absurd (code.symm.trans (done.mpr active)) (by decide)
  | case3 i b part =>
    rename_i code
    obtain ⟨p',onward,done⟩ := call looping running idle task
    refine ⟨p',onward,iff_of_false (fun same => Exit.noConfusion same) fun active => ?_⟩
    exact absurd (code.symm.trans (done.mpr active)) (by decide)
  | case4 i b part full code =>
    obtain ⟨p',onward,done⟩ := call looping running idle task
    exact ⟨p',onwardBatch onward 0,iff_of_false (fun same => Exit.noConfusion same) fun active => code (done.mpr active)⟩
  | case5 i b part more next late code =>
    obtain ⟨p',onward,done⟩ := call looping running idle task
    exact ⟨p',onwardBatch onward _,iff_of_false (fun same => Exit.noConfusion same) fun active => code (done.mpr active)⟩
  | case6 i b part more next early rest code =>
    rename_i ih
    obtain ⟨p',onward,done⟩ := call looping running idle task
    have idle' : p'.work.active = false := by
      by_contra active
      exact code (done.mpr (by simpa using active))
    obtain ⟨p'',later,ends⟩ := ih onward.looping (onward.exited.trans running) idle' onward.task
    exact ⟨p'',onwardTrans (onwardBatch onward _) later,ends⟩

theorem loopingSaid {s : System} (looping : Looping config pid slot start past s p) (exit : Exit) (delay : Nat) :
    Looping config pid slot start (past ++ [.paused exit delay]) s p := by
  refine ⟨looping.reached,looping.valid,looping.found,looping.seat,?_,fun held => ?_,fun k here walked => ?_,
    witnessedAppend looping.honest (witnessedSingle trivial)⟩
  · rw [List.filterMap_append,List.filterMap_append,looping.passes]
    change past.filterMap BackgroundOutput.finished ++ p.work.item.toList ++ [] =
      past.filterMap BackgroundOutput.finished ++ [] ++ p.work.item.toList
    rw [List.append_nil,List.append_nil]
  · rw [reportedAppend]
    exact looping.counters held
  · rw [looping.books k here walked,List.flatMap_append,dueAppend]
    rfl

theorem recoveredLooping (looping : Looping config pid slot start past b.system p) (running : p.exited = false)
    (a : Wakeup) : Looping config pid slot start past (b.recovered a p).system p := by
  unfold Background.recovered
  split
  · obtain ⟨_,here⟩ := findMember looping.found
    have found := looping.found
    subst here
    have step : (b.system.step config (.recover p.pid a.now a.locked a.claims)).1 =
        (recoverStep p a.now a.locked a.claims b.system).1 := by
      simp [System.step,WorkerEvent.pid,found,running,processStep]
    change Looping _ _ _ _ _ (recoverStep p a.now a.locked a.claims b.system).1 _
    rw [← step]
    refine loopingQuiet looping ?_ rfl rfl rfl ?_
    · rw [step]
      exact found
    · rw [step]
      exact recoverUnwalked _ _ _
  · exact looping

def Continues (b : Background) (p : Process) : Prop :=
  b.timer = !p.work.active ∨
    b.timer = false ∧ p.work.active = false ∧ p.leaving = true ∧ p.work.item = none

structure Attended (config : Config) (pid : Pid) (slot : Slot) (start : System) (past : List BackgroundOutput)
    (b : Background) (p : Process) : Prop where
  looping : Looping config pid slot start past b.system p
  task : b.taskTimer = p.work.active
  continues : p.exited = false → Continues b p
  gone : p.exited = true → b.timer = false ∧ (p.work.item.isSome = true → p.work.active = true)

def Attends (config : Config) (pid : Pid) (slot : Slot) (start : System) (past : List BackgroundOutput) (p : Process)
    (r : Background × List BackgroundOutput) : Prop :=
  ∃ p', Attended config pid slot start (past ++ r.2) r.1 p' ∧
    (p.leaving = true → p'.leaving = true ∧ ∀ t, .started t ∉ r.2)

theorem handlerAttends (looping : Looping config pid slot start past b.system p) (running : p.exited = false)
    (idle : p.work.active = false) (task : b.taskTimer = p.work.active) (off : b.timer = false) (a : Wakeup) :
    Attends config pid slot start past p (backgroundHandler config pid conf a p b) := by
  have begun : Looping config pid slot start past ((b.recovered a p).others config pid a.between).system p :=
    loopingOthers (recoveredLooping looping running a) a.between
  have fields : (b.recovered a p).taskTimer = b.taskTimer ∧ (b.recovered a p).timer = b.timer := by
    unfold Background.recovered
    split <;> exact ⟨rfl,rfl⟩
  obtain ⟨p',onward,posted⟩ := @drainOnward config pid slot start past ((b.recovered a p).others config pid a.between) p
    conf a.now a.iterations 0 begun running idle (fields.1.trans task)
  have quiet : (drain config pid conf a.now a.iterations 0 ((b.recovered a p).others config pid a.between)).2.1.timer =
      false := onward.timer.trans (fields.2.trans off)
  have gone : p'.exited ≠ true := by simp [onward.exited,running]
  have left (leaving : p.leaving = true) : p'.leaving = true := onward.leaving.trans leaving
  unfold backgroundHandler
  dsimp only
  split
  · rename_i end_
    have active := posted.mp end_
    exact ⟨p',⟨onward.looping,onward.task,fun _ => .inl (by rw [quiet,active]; rfl),fun exited => absurd exited gone⟩,
      fun leaving => ⟨left leaving,onward.idle leaving⟩⟩
  · rename_i lost _
    exact absurd (lost.symm.trans onward.looping.found) (by simp)
  · rename_i exit p'' found other
    cases Option.some.inj (found.symm.trans onward.looping.found)
    have idle' : p'.work.active = false := by
      by_contra active
      exact other (posted.mpr (by simpa using active))
    split
    · rename_i leaves
      simp only [Bool.and_eq_true,Option.isNone_iff_eq_none] at leaves
      exact ⟨p',⟨onward.looping,onward.task,fun _ => .inr ⟨quiet,idle',leaves.2,leaves.1⟩,fun exited => absurd exited gone⟩,
        fun leaving => ⟨left leaving,onward.idle leaving⟩⟩
    · refine ⟨p',⟨?_,onward.task,fun _ => .inl (by rw [idle']; rfl),fun exited => absurd exited gone⟩,
        fun leaving => ⟨left leaving,fun t member => ?_⟩⟩
      · rw [← List.append_assoc]
        exact loopingSaid onward.looping _ _
      · rcases List.mem_append.mp member with before | now
        · exact onward.idle leaving t before
        · simp at now

end handler

section steps
variable {config : Config} {pid : Pid} {slot : Slot} {start : System} {past : List BackgroundOutput}
  {b : Background} {p : Process} {conf : BackgroundConf}

theorem attendsSame (attended : Attended config pid slot start past b p) : Attends config pid slot start past p (b,[]) :=
  ⟨p,by rw [List.append_nil]; exact attended,fun leaving => ⟨leaving,by simp⟩⟩

theorem attendsQuiet (attended : Attended config pid slot start past b p) {e : WorkerEvent} {p' : Process}
    (found : (b.system.step config e).1.find pid = some p') (seat : p'.slot = p.slot) (work : p'.work = p.work)
    (exited : p'.exited = p.exited) (leaving : p.leaving = true → p'.leaving = true)
    (books : Unwalked b.system.queue (b.system.step config e).1.queue) :
    Attends config pid slot start past p ({b with system := (b.system.step config e).1},[]) := by
  refine ⟨p',⟨?_,attended.task.trans (congrArg Work.active work).symm,fun running => ?_,fun gone => ?_⟩,
    fun leaves => ⟨leaving leaves,by simp⟩⟩
  · rw [List.append_nil]
    exact loopingQuiet attended.looping found seat (congrArg Work.item work) (congrArg Work.counters work) books
  · unfold Continues
    rw [work]
    rcases attended.continues (exited ▸ running) with one | ⟨quiet,idle,leaves,empty⟩
    · exact .inl one
    · exact .inr ⟨quiet,idle,leaving leaves,empty⟩
  · rw [work]
    exact attended.gone (exited ▸ gone)

theorem threadAttends (attended : Attended config pid slot start past b p) (active : p.work.active = true)
    (unfinished : p.work.finished = false) (counters : Counters) : Attends config pid slot start past p
      ({b with system := (b.system.step config (.thread pid counters)).1},[.ran counters]) := by
  obtain ⟨_,here⟩ := findMember attended.looping.found
  have found := attended.looping.found
  subst here
  have step : (b.system.step config (.thread p.pid counters)).1 = b.system.setWork p.pid (threadRun counters p.work) := by
    simp [System.step,found,active,unfinished]
  have found' : (b.system.step config (.thread p.pid counters)).1.find p.pid =
      some {p with work := threadRun counters p.work} := by
    rw [step]
    exact setWorkSelf found _
  refine ⟨{p with work := threadRun counters p.work},⟨?_,attended.task,attended.continues,attended.gone⟩,
    fun leaving => ⟨leaving,by simp⟩⟩
  have books : Unwalked b.system.queue (b.system.step config (.thread p.pid counters)).1.queue := by
    rw [step]
    exact fun _ _ => rfl
  refine loopingOwn attended.looping found' rfl (List.append_nil _) (fun _ => ?_)
    (fun _ _ walked => unwalkedBooks books walked) (witnessedSingle trivial)
  rw [reportedAppend]
  rfl

theorem exitLooping (looping : Looping config pid slot start past b.system p) (running : p.exited = false)
    (now closed : UInt64) : ∃ p', Looping config pid slot start
      (past ++ (backgroundCall config pid conf p b (.exit now closed)).2)
      (backgroundCall config pid conf p b (.exit now closed)).1.system p' ∧
    p'.exited = true ∧ p'.leaving = p.leaving ∧ p'.work.active = p.work.active ∧
    (p'.work.item = none ∨ p'.work.item = p.work.item ∧ p.work.active = true ∧ p.work.finished = false) ∧
    ∀ t, .started t ∉ (backgroundCall config pid conf p b (.exit now closed)).2 := by
  obtain ⟨member,here⟩ := findMember looping.found
  have found := looping.found
  subst here
  have found' : (b.system.step config (.exit p.pid now closed)).1.find p.pid =
      some {p with work := (exitWorker p.slot now closed b.system.queue p.work).2, exited := true} := by
    simp only [System.step,WorkerEvent.pid,found,running,Bool.false_eq_true,if_false,processStep,exitStep]
    exact @reviseSelf {b.system with queue := _} p.pid p found _ fun _ => rfl
  have queue : (b.system.step config (.exit p.pid now closed)).1.queue =
      (exitWorker p.slot now closed b.system.queue p.work).1 := by
    simp only [System.step,WorkerEvent.pid,found,running,Bool.false_eq_true,if_false,processStep,exitStep]
    rfl
  simp only [backgroundCall]
  rcases Bool.eq_false_or_eq_true (p.work.active && !p.work.finished) with busy | free
  · rw [exitBusy busy] at found' queue
    rw [if_pos (by simp [busy]),List.append_nil]
    simp only [Bool.and_eq_true,Bool.not_eq_true'] at busy
    exact ⟨_,loopingQuiet looping found' rfl rfl rfl fun k _ => by rw [queue],rfl,rfl,rfl,.inr ⟨rfl,busy⟩,by simp⟩
  cases holds : p.work.item with
  | none =>
    rw [exitEmpty free holds] at found' queue
    rw [if_pos (by simp),List.append_nil]
    refine ⟨_,loopingQuiet looping found' rfl rfl rfl fun k _ => ?_,rfl,rfl,rfl,.inl holds,by simp⟩
    rw [queue]
    rfl
  | some t =>
    obtain ⟨item,here,_⟩ := (looping.valid.holding p member t holds).holder
    have closing : (p.work.closing closed).item = some t := holds
    have said : passEnd b.system.queue (p.work.closing closed) =
        [.ended t item.path (p.work.closing closed).counters] := by
      simp [passEnd,closing,here]
    rw [exitHolding free holds here] at found' queue
    rw [if_neg (by simp [free]),said]
    have counted : (p.work.closing closed).counters = reported (past ++ [.closed closed]) := by
      rw [reportedAppend,← looping.counters (by simp [holds])]
      rfl
    refine ⟨_,loopingOwn looping found' rfl ?_ (fun held => Bool.noConfusion held) (fun k slot walked => ?_) ?_,
      rfl,rfl,rfl,.inl rfl,by simp⟩
    · rw [holds]
      rfl
    · rw [queue]
      change (endTask p.slot now t item (p.work.closing closed) b.system.queue).ledger k = _
      rw [endTaskWalked walked]
      simp [BackgroundOutput.bookings,looping.seat]
    · exact @witnessedAppend _ Honest past [.closed closed] [.ended t item.path (p.work.closing closed).counters]
        (witnessedSingle trivial) (witnessedSingle counted)

theorem exitAttends (attended : Attended config pid slot start past b p) (running : p.exited = false)
    (now closed : UInt64) : Attends config pid slot start past p (backgroundCall config pid conf p b (.exit now closed)) := by
  obtain ⟨p',looping,exited,leaving,active,item,silent⟩ :=
    @exitLooping config pid slot start past b p conf attended.looping running now closed
  refine ⟨p',⟨looping,attended.task.trans active.symm,fun runs => ?_,fun _ => ⟨rfl,fun held => ?_⟩⟩,
    fun leaves => ⟨leaving.trans leaves,silent⟩⟩
  · simp [exited] at runs
  · rcases item with none_ | ⟨_,busy,_⟩
    · simp [none_] at held
    · exact active.trans busy

theorem callAttends (attended : Attended config pid slot start past b p) (running : p.exited = false)
    (e : BackgroundEvent) : Attends config pid slot start past p (backgroundCall config pid conf p b e) := by
  obtain ⟨_,here⟩ := findMember attended.looping.found
  have found := attended.looping.found
  subst here
  cases e with
  | other e => exact attendsSame attended
  | thread counters => exact attendsSame attended
  | leave =>
    have step : (b.system.step config (.leave p.pid)).1 = b.system.revise p.pid fun p => {p with leaving := true} := by
      simp [System.step,WorkerEvent.pid,found,running,processStep]
    refine @attendsQuiet config p.pid slot start past b p attended _ {p with leaving := true} ?_ rfl rfl rfl (fun _ => rfl) ?_
    · rw [step]
      exact reviseSelf found fun _ => rfl
    · rw [step]
      exact fun _ _ => rfl
  | enqueue purge o =>
    refine @attendsQuiet config p.pid slot start past b p attended (.enqueue p.pid purge o) p ?_ rfl rfl rfl id ?_
    · simp only [System.step,WorkerEvent.pid,found,running,Bool.false_eq_true,if_false,processStep]
      exact found
    · simp only [System.step,WorkerEvent.pid,found,running,Bool.false_eq_true,if_false,processStep]
      exact enqueueUnwalked
  | timeout =>
    simp only [backgroundCall]
    split
    · rename_i armed
      have same : ({b with taskTimer := true} : Background) = b := by rw [← armed]
      rw [same]
      exact attendsSame attended
    · exact attendsSame attended
  | timer a =>
    simp only [backgroundCall]
    split
    · rename_i armed
      have idle : p.work.active = false := by
        rcases attended.continues running with one | ⟨quiet,_⟩
        · simpa [armed] using one
        · simp [armed] at quiet
      exact @handlerAttends config p.pid slot start past {b with timer := false} p conf attended.looping running idle
        attended.task rfl a
    · exact attendsSame attended
  | notify a =>
    simp only [backgroundCall]
    split
    · rename_i called
      obtain ⟨active,finished⟩ := Bool.and_eq_true_iff.mp called
      have off : b.timer = false := by
        rcases attended.continues running with one | ⟨quiet,_⟩
        · simpa [active] using one
        · exact quiet
      let freed : Work := {p.work with active := false}
      have step : (b.system.step config (.notify p.pid)).1 = b.system.setWork p.pid freed := by
        simp [System.step,WorkerEvent.pid,found,running,processStep,active,finished,freed]
      have looping : Looping config p.pid slot start past (b.system.step config (.notify p.pid)).1 {p with work := freed} := by
        refine loopingQuiet attended.looping ?_ rfl rfl rfl ?_
        · rw [step]
          exact setWorkSelf found freed
        · rw [step]
          exact fun _ _ => rfl
      exact @handlerAttends config p.pid slot start past
        {b with
          system := (b.system.step config (.notify p.pid)).1
          taskTimer := false} {p with work := freed} conf looping running rfl rfl off a
    · exact attendsSame attended
  | exit now closed => exact exitAttends attended running now closed

theorem stepAttends (attended : Attended config pid slot start past b p) (e : BackgroundEvent) :
    Attends config pid slot start past p (b.step config pid conf e) := by
  have called (e : BackgroundEvent) : Attends config pid slot start past p
      (if p.exited then (b,[]) else backgroundCall config pid conf p b e) := by
    split
    · exact attendsSame attended
    · rename_i running
      exact callAttends attended (by simpa using running) e
  cases e with
  | other e =>
    refine ⟨p,⟨?_,attended.task,attended.continues,attended.gone⟩,fun leaving => ⟨leaving,by simp [Background.step]⟩⟩
    change Looping _ _ _ _ (past ++ []) _ _
    rw [List.append_nil]
    exact loopingOthers attended.looping [e]
  | thread counters =>
    simp only [Background.step,attended.looping.found]
    split
    · rename_i runs
      obtain ⟨active,unfinished⟩ := Bool.and_eq_true_iff.mp runs
      exact threadAttends attended active (by simpa using unfinished) counters
    · exact attendsSame attended
  | _ =>
    simp only [Background.step,attended.looping.found]
    exact called _

theorem attendedStart {threaded : Bool} {namespaces : List Nat} (valid : start.Valid)
    (started : start.find pid = some ⟨pid,slot,false,false,.idle threaded,namespaces⟩) :
    Attended config pid slot start [] (backgroundInit start) ⟨pid,slot,false,false,.idle threaded,namespaces⟩ :=
  ⟨loopingStart valid started,rfl,fun _ => .inl rfl,fun exited => Bool.noConfusion exited⟩

theorem runAttends (attended : Attended config pid slot start past b p) (events : List BackgroundEvent) :
    Attends config pid slot start past p ((backgroundMachine config pid conf).after b events,
      (backgroundMachine config pid conf).outputs b events) := by
  refine (backgroundMachine config pid conf).tracks (P := fun out b => Attends config pid slot start past p (b,out))
    (attendsSame attended) (fun out b e ⟨p₁,held,quiet⟩ => ?_) events
  obtain ⟨p₂,next,silent⟩ := @stepAttends config pid slot start (past ++ out) b p₁ conf held e
  refine ⟨p₂,by rw [← List.append_assoc]; exact next,fun leaving => ?_⟩
  obtain ⟨left,before⟩ := quiet leaving
  obtain ⟨leaves,now⟩ := silent left
  refine ⟨leaves,fun t member => ?_⟩
  rcases List.mem_append.mp member with earlier | later
  · exact before t earlier
  · exact now t later

end steps

theorem backgroundRefines {config : Config} {conf : BackgroundConf} {pid : Pid} {slot : Slot} {threaded : Bool}
    {namespaces : List Nat} {start : System} (valid : start.Valid)
    (started : start.find pid = some ⟨pid,slot,false,false,.idle threaded,namespaces⟩)
    (events : List BackgroundEvent) : ∃ sections : List WorkerEvent,
      ((backgroundMachine config pid conf).after (backgroundInit start) events).system =
        (systemMachine config).after start sections := by
  obtain ⟨p,attended,_⟩ := @runAttends config pid slot start [] _ _ conf (attendedStart valid started) events
  exact attended.looping.reached

/- One executor for each worker: its event loop and its pool thread never walk at
once, it always waits for exactly one of its timer and its task, and every pass it
begins is ended and counted once, in the order of the beginnings. -/
theorem oneExecutor (config : Config) (conf : BackgroundConf) (maxSize : Nat) (paths : List (Nat × Bytes))
    (epochs : Nat → Epoch) (before : List WorkerEvent) (pid : Pid) (slot : Slot) (threaded : Bool)
    (namespaces : List Nat) (started : ((systemMachine config).after (systemInit maxSize paths epochs) before).find pid =
      some ⟨pid,slot,false,false,.idle threaded,namespaces⟩) (events : List BackgroundEvent) :
    let m := backgroundMachine config pid conf
    let start := (systemMachine config).after (systemInit maxSize paths epochs) before
    let history := m.outputs (backgroundInit start) events
    let b := m.after (backgroundInit start) events
    ∃ p, b.system.find pid = some p ∧ p.slot = slot ∧
      (∀ counters, .walked true counters ∉ history) ∧
      (p.exited = false → Continues b p ∧ b.taskTimer = p.work.active) ∧
      (p.leaving = true → ∀ later t, .started t ∉ m.outputs b later) ∧
      history.filterMap BackgroundOutput.begun = history.filterMap BackgroundOutput.finished ++ p.work.item.toList ∧
      (∀ front t a c back, history = front ++ .ended t a c :: back → c = reported front) ∧
      (∀ k : Account, k.slot = slot → k.field.walked = true → b.system.queue.ledger k =
        min (start.queue.ledger k + due (history.flatMap (BackgroundOutput.bookings slot)) k) counterMax) ∧
      (p.exited = false → (p.work.active = true → p.work.finished = true) → ∀ now closed p',
        (m.step b (.exit now closed)).1.system.find pid = some p' → p'.exited = true ∧ p'.work.item = none) := by
  intro m start history b
  have valid : start.Valid := runKeepsValid (initSystemValid maxSize paths epochs) before
  obtain ⟨p,attended,_⟩ := @runAttends config pid slot start [] _ _ conf (attendedStart valid started) events
  have looping : Looping config pid slot start history b.system p := attended.looping
  have honest {front back : List BackgroundOutput} {o : BackgroundOutput} (split : history = front ++ o :: back) :
      Honest front o := looping.honest front o back split
  refine ⟨p,looping.found,looping.seat,fun counters member => ?_,fun running => ⟨attended.continues running,attended.task⟩,
    fun leaving later => ?_,looping.passes,fun front t a c back split => honest split,looping.books,
    fun running finished now closed p' there => ?_⟩
  · obtain ⟨front,back,split⟩ := List.append_of_mem member
    exact Bool.noConfusion (honest split)
  · obtain ⟨_,_,silent⟩ := @runAttends config pid slot start history b p conf attended later
    exact (silent leaving).2
  · have step : m.step b (.exit now closed) = backgroundCall config pid conf p b (.exit now closed) := by
      change b.step config pid conf (.exit now closed) = _
      simp [Background.step,looping.found,running]
    obtain ⟨left,looping',exited,_,_,item,_⟩ :=
      @exitLooping config pid slot start history b p conf looping running now closed
    rw [step] at there
    cases Option.some.inj (there.symm.trans looping'.found)
    refine ⟨exited,item.resolve_right fun ⟨_,active,unfinished⟩ => ?_⟩
    rw [finished active] at unfinished
    contradiction

def threadedStart : List WorkerEvent := [.start 7 0 true [0]]

def threadedWakeup : Wakeup :=
  ⟨2000,fun _ => true,true,[],fun _ => ⟨10,true,true,[],true,false,⟨0,0,0,0⟩,[],10,true,10⟩⟩

def threadedPass : List BackgroundEvent := [.enqueue sitePurge ⟨true,true,some 5,[some 8,some 9]⟩,
  .timer threadedWakeup,.timeout,.thread ⟨3,0,1,5⟩,.notify threadedWakeup]

theorem oneExecutorThreaded :
    let m := backgroundMachine siteConfig 7 ⟨2,10⟩
    let start := (systemMachine siteConfig).after (systemInit 4 [(1,[47,99])] fun _ => siteEpoch) threadedStart
    m.outputs (backgroundInit start) threadedPass =
      [.started 5,.posted 5,.ran ⟨3,0,1,5⟩,.ended 5 1 ⟨3,0,1,5⟩,.paused .busy 10] ∧
    ∃ p, (m.after (backgroundInit start) threadedPass).system.find 7 = some p ∧ p.slot = 0 ∧
      (p.exited = false → Continues (m.after (backgroundInit start) threadedPass) p) := by
  refine ⟨by decide +kernel,?_⟩
  obtain ⟨p,found,seat,_,continues,_⟩ := oneExecutor siteConfig ⟨2,10⟩ 4 [(1,[47,99])] (fun _ => siteEpoch) threadedStart
    7 0 true [0] (by decide +kernel) threadedPass
  exact ⟨p,found,seat,fun running => (continues running).1⟩

end CachePurge
