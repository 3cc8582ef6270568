import CachePurge.BackgroundRuns

/-! The pauses of ngx_http_cache_purge_background_handler, whatever its calls of
ngx_http_cache_purge_process_queue answer: one batch counter over timer callbacks and
thread completions. -/
namespace CachePurge
open General

/- What one call returns, and what the handler sees after it: no task held, a task
whose thread could not be posted, and the clock. -/
structure BatchAnswer where
  rc : Rc
  idle : Bool
  waiting : Bool
  clock : UInt64

structure BatchCall where
  start : UInt64
  answers : Nat → BatchAnswer
  leaving : Bool

/- The batch counter, and what will call the handler again: its timer or a thread. -/
structure BatchState where
  batch : Nat
  timer : Bool
  inFlight : Bool
  deriving DecidableEq, Repr

inductive BatchEvent where
  | timer (c : BatchCall)
  | completion (c : BatchCall)

inductive BatchOutput where
  | returned (rc : Rc)
  | timer (exit : Exit) (delay : Nat)
  deriving DecidableEq, Repr

def BatchOutput.finished : BatchOutput → Bool
  | .returned rc => rc != .done && rc != .ok && rc != .busy
  | .timer _ _ => false

def BatchOutput.pauses : BatchOutput → Bool
  | .returned _ => false
  | .timer exit _ => exit == .full || exit == .empty

section handler
variable (conf : BackgroundConf)

def batchLoop (start : UInt64) (answers : Nat → BatchAnswer) (i batch : Nat) : Exit × Nat × BatchAnswer × List BatchOutput :=
  let a := answers i
  match a.rc with
  | .done => (.posted,batch,a,[.returned a.rc])
  | .ok => (.empty,0,a,[.returned a.rc])
  | .busy => (.busy,batch,a,[.returned a.rc])
  | _ =>
    if conf.batchSize ≤ batch + 1 then (.full,0,a,[.returned a.rc])
    else if walkMsec ≤ (age a.clock start).toNat then (.clock,batch + 1,a,[.returned a.rc])
    else
      let rest := batchLoop start answers (i + 1) (batch + 1)
      (rest.1,rest.2.1,rest.2.2.1,.returned a.rc :: rest.2.2.2)
termination_by conf.batchSize - batch

def BatchAnswer.delay (a : BatchAnswer) : Exit → Nat
  | .empty => conf.throttle * 10
  | .full => conf.throttle
  | .busy => if a.idle || a.waiting then 10 else 1
  | _ => 1

def batchHandler (c : BatchCall) (s : BatchState) : BatchState × List BatchOutput :=
  let ended := batchLoop conf c.start c.answers 0 s.batch
  if ended.1 = .posted then ({s with batch := ended.2.1,inFlight := true},ended.2.2.2)
  else if ended.2.2.1.idle && c.leaving then ({s with batch := ended.2.1},ended.2.2.2)
  else ({s with batch := ended.2.1,timer := true},ended.2.2.2 ++ [.timer ended.1 (ended.2.2.1.delay conf ended.1)])

def BatchState.step (s : BatchState) : BatchEvent → BatchState × List BatchOutput
  | .timer c => if s.timer then batchHandler conf c {s with timer := false} else (s,[])
  | .completion c => if s.inFlight then batchHandler conf c {s with inFlight := false} else (s,[])

def batchMachine : Machine BatchState BatchEvent BatchOutput := ⟨BatchState.step conf⟩

end handler

/- ngx_http_cache_purge_init_worker adds the first timer. -/
def batchInit : BatchState := ⟨0,true,false⟩

def tallied (n : Nat) (o : BatchOutput) : Nat := if o.pauses then 0 else if o.finished then n + 1 else n

def sincePause (past : List BatchOutput) : Nat := past.foldl tallied 0

def Timely (conf : BackgroundConf) (past : List BatchOutput) : BatchOutput → Prop
  | .returned rc => (BatchOutput.returned rc).finished = true → sincePause past < conf.batchSize
  | .timer .full delay => delay = conf.throttle ∧ sincePause past = conf.batchSize
  | .timer .empty delay => delay = conf.throttle * 10
  | .timer _ _ => True

structure BatchState.Counts (conf : BackgroundConf) (past : List BatchOutput) (s : BatchState) : Prop where
  one : s.timer = false ∨ s.inFlight = false
  tally : s.timer = true ∨ s.inFlight = true → sincePause past = s.batch ∧ s.batch < conf.batchSize

section tallies

theorem sinceLast (past : List BatchOutput) (o : BatchOutput) : sincePause (past ++ [o]) = tallied (sincePause past) o :=
  List.foldl_append

theorem tallyFree {middle : List BatchOutput} (free : ∀ o ∈ middle, o.pauses = false) (n : Nat) :
    middle.foldl tallied n = n + middle.countP BatchOutput.finished := by
  induction middle generalizing n with
  | nil => rfl
  | cons o rest ih =>
    rw [List.foldl_cons,ih (fun o later => free o (List.mem_cons_of_mem _ later)),List.countP_cons,tallied,
      free o List.mem_cons_self]
    cases o.finished <;> simp
    omega

theorem sinceFree {past middle : List BatchOutput} (free : ∀ o ∈ middle, o.pauses = false) :
    sincePause (past ++ middle) = sincePause past + middle.countP BatchOutput.finished :=
  List.foldl_append.trans (tallyFree free _)

theorem sinceSplit (past : List BatchOutput) : ∃ earlier since, past = earlier ++ since ∧
    (earlier = [] ∨ ∃ front o, earlier = front ++ [o] ∧ o.pauses = true) ∧ (∀ o ∈ since, o.pauses = false) ∧
    sincePause past = since.countP BatchOutput.finished := by
  induction past using List.reverseRecOn with
  | nil => exact ⟨[],[],rfl,.inl rfl,by simp,rfl⟩
  | append_singleton past o ih =>
    cases pauses : o.pauses with
    | true =>
      refine ⟨past ++ [o],[],by simp,.inr ⟨past,o,rfl,pauses⟩,by simp,?_⟩
      rw [sinceLast,tallied,pauses]
      rfl
    | false =>
      obtain ⟨earlier,since,rfl,bounded,free,count⟩ := ih
      refine ⟨earlier,since ++ [o],by simp,bounded,?_,?_⟩
      · intro o' member
        rcases List.mem_append.mp member with before | last
        · exact free o' before
        · rwa [List.mem_singleton.mp last]
      · rw [sinceLast,tallied,pauses,List.countP_append,List.countP_singleton,count]
        cases o.finished <;> simp

end tallies

section contract
variable {conf : BackgroundConf}

structure Counted (conf : BackgroundConf) (past : List BatchOutput) (ended : Exit × Nat × BatchAnswer × List BatchOutput) :
    Prop where
  timely : Witnessed (Timely conf) past ended.2.2.2
  free : ∀ o ∈ ended.2.2.2, o.pauses = false
  full : ended.1 = .full → sincePause (past ++ ended.2.2.2) = conf.batchSize ∧ ended.2.1 = 0
  empty : ended.1 = .empty → ended.2.1 = 0
  other : ended.1 ≠ .full → ended.1 ≠ .empty → sincePause (past ++ ended.2.2.2) = ended.2.1 ∧ ended.2.1 < conf.batchSize

theorem returnedLast (past : List BatchOutput) (rc : Rc) : sincePause (past ++ [.returned rc]) =
    if (BatchOutput.returned rc).finished then sincePause past + 1 else sincePause past := by
  rw [sinceLast]
  rfl

theorem returnedTimely {past : List BatchOutput} (room : sincePause past < conf.batchSize) (rc : Rc) :
    Witnessed (Timely conf) past [.returned rc] := witnessedSingle fun _ => room

theorem finishedOther {rc : Rc} (done : rc ≠ .done) (ok : rc ≠ .ok) (busy : rc ≠ .busy) :
    (BatchOutput.returned rc).finished = true := by
  simp [BatchOutput.finished,done,ok,busy]

theorem loopCounts (start : UInt64) (answers : Nat → BatchAnswer) (i batch : Nat) (past : List BatchOutput)
    (tally : sincePause past = batch) (room : batch < conf.batchSize) :
    Counted conf past (batchLoop conf start answers i batch) := by
  have free (rc : Rc) : ∀ o ∈ [BatchOutput.returned rc], o.pauses = false := by simp [BatchOutput.pauses]
  fun_induction batchLoop conf start answers i batch generalizing past with
  | case1 i batch a code =>
    have timely := returnedTimely (tally ▸ room) a.rc
    refine ⟨timely,free a.rc,by simp,by simp,fun _ _ => ⟨?_,room⟩⟩
    rw [returnedLast,code,tally]
    rfl
  | case2 i batch a code => exact ⟨returnedTimely (tally ▸ room) a.rc,free a.rc,by simp,by simp,by simp⟩
  | case3 i batch a code =>
    refine ⟨returnedTimely (tally ▸ room) a.rc,free a.rc,by simp,by simp,fun _ _ => ⟨?_,room⟩⟩
    rw [returnedLast,code,tally]
    rfl
  | case4 i batch a full done ok busy =>
    have done_ : (BatchOutput.returned a.rc).finished = true := finishedOther done ok busy
    refine ⟨returnedTimely (tally ▸ room) a.rc,free a.rc,fun _ => ⟨?_,rfl⟩,by simp,by simp⟩
    rw [returnedLast,if_pos done_,tally]
    omega
  | case5 i batch a more late done ok busy =>
    have done_ : (BatchOutput.returned a.rc).finished = true := finishedOther done ok busy
    refine ⟨returnedTimely (tally ▸ room) a.rc,free a.rc,by simp,by simp,fun _ _ => ⟨?_,by simp only; omega⟩⟩
    rw [returnedLast,if_pos done_,tally]
  | case6 i batch a more early rest done ok busy =>
    rename_i ih
    have done_ : (BatchOutput.returned a.rc).finished = true := finishedOther done ok busy
    have next : sincePause (past ++ [.returned a.rc]) = batch + 1 := by rw [returnedLast,if_pos done_,tally]
    obtain ⟨timely,quiet,full,empty,other⟩ := ih (past ++ [.returned a.rc]) next (by omega)
    rw [List.append_assoc] at full other
    refine ⟨witnessedAppend (returnedTimely (tally ▸ room) a.rc) timely,?_,full,empty,other⟩
    exact List.forall_mem_cons.mpr ⟨rfl,quiet⟩

theorem handlerCounts (c : BatchCall) {past : List BatchOutput} {s : BatchState} (tally : sincePause past = s.batch)
    (room : s.batch < conf.batchSize) (none_ : s.timer = false ∧ s.inFlight = false) :
    (batchHandler conf c s).1.Counts conf (past ++ (batchHandler conf c s).2) ∧
    Witnessed (Timely conf) past (batchHandler conf c s).2 := by
  have counted := loopCounts c.start c.answers 0 s.batch past tally room
  unfold batchHandler
  simp only
  generalize batchLoop conf c.start c.answers 0 s.batch = ended at counted
  obtain ⟨exit,batch,a,out⟩ := ended
  split
  · rename_i posted
    refine ⟨⟨.inl none_.1,fun _ => ?_⟩,counted.timely⟩
    exact counted.other (by rw [posted]; decide) (by rw [posted]; decide)
  · split
    · refine ⟨⟨.inl none_.1,fun armed => ?_⟩,counted.timely⟩
      rw [none_.1,none_.2] at armed
      simp at armed
    · rename_i posted _
      have last : Timely conf (past ++ out) (.timer exit (a.delay conf exit)) ∧
          sincePause (past ++ out ++ [.timer exit (a.delay conf exit)]) = batch ∧ batch < conf.batchSize := by
        rw [sinceLast]
        cases exit with
        | posted => contradiction
        | full =>
          obtain ⟨whole,reset⟩ := counted.full rfl
          have reset : batch = 0 := reset
          exact ⟨⟨rfl,whole⟩,reset.symm,by omega⟩
        | empty =>
          have reset : batch = 0 := counted.empty rfl
          exact ⟨rfl,reset.symm,by omega⟩
        | busy => exact ⟨trivial,counted.other (by simp) (by simp)⟩
        | clock => exact ⟨trivial,counted.other (by simp) (by simp)⟩
      refine ⟨⟨.inr none_.2,fun _ => ?_⟩,witnessedAppend counted.timely (witnessedSingle last.1)⟩
      rw [← List.append_assoc]
      exact last.2

theorem stepCounts {past : List BatchOutput} {s : BatchState} (counts : s.Counts conf past) (e : BatchEvent) :
    (s.step conf e).1.Counts conf (past ++ (s.step conf e).2) ∧ Witnessed (Timely conf) past (s.step conf e).2 := by
  cases e with
  | timer c =>
    rw [BatchState.step]
    split
    · rename_i set_
      obtain ⟨tally,room⟩ := counts.tally (.inl set_)
      have other := counts.one.resolve_left (by rw [set_]; decide)
      exact handlerCounts (s := {s with timer := false}) c tally room ⟨rfl,other⟩
    · rw [List.append_nil]
      exact ⟨counts,witnessedNil past⟩
  | completion c =>
    rw [BatchState.step]
    split
    · rename_i posted
      obtain ⟨tally,room⟩ := counts.tally (.inr posted)
      have other := counts.one.resolve_right (by rw [posted]; decide)
      exact handlerCounts (s := {s with inFlight := false}) c tally room ⟨other,rfl⟩
    · rw [List.append_nil]
      exact ⟨counts,witnessedNil past⟩

theorem runTimely (some_ : 1 ≤ conf.batchSize) (events : List BatchEvent) :
    Witnessed (Timely conf) [] ((batchMachine conf).outputs batchInit events) := by
  have start : batchInit.Counts conf [] := ⟨.inr rfl,fun _ => ⟨rfl,some_⟩⟩
  exact (batchMachine conf).witnessed start (fun _ _ e counts => stepCounts counts e) events

end contract

/- Between two pauses at most a batch of tasks is finished; a pause for a full batch
follows exactly a batch, and lasts the throttle time, ten times that for an empty queue. -/
theorem batchContract (conf : BackgroundConf) (some_ : 1 ≤ conf.batchSize) (events : List BatchEvent) :
    let outputs := (batchMachine conf).outputs batchInit events
    (∀ front middle back, outputs = front ++ middle ++ back → (∀ o ∈ middle, o.pauses = false) →
      middle.countP BatchOutput.finished ≤ conf.batchSize) ∧
    (∀ front delay back, outputs = front ++ .timer .full delay :: back → delay = conf.throttle ∧
      ∃ earlier since, front = earlier ++ since ∧ (earlier = [] ∨ ∃ past o, earlier = past ++ [o] ∧ o.pauses = true) ∧
        (∀ o ∈ since, o.pauses = false) ∧ since.countP BatchOutput.finished = conf.batchSize) ∧
    ∀ front delay back, outputs = front ++ .timer .empty delay :: back → delay = conf.throttle * 10 := by
  intro outputs
  have timely : Witnessed (Timely conf) [] outputs := runTimely some_ events
  refine ⟨fun front middle back split_ free => ?_,fun front delay back split_ => ?_,fun front delay back split_ => ?_⟩
  · -- the last finished task of the segment was returned below the limit
    induction middle using List.reverseRecOn generalizing back with
    | nil => exact Nat.zero_le _
    | append_singleton middle o ih =>
      have before := ih (o :: back) (by rw [split_]; simp) fun o' member => free o' (List.mem_append_left _ member)
      rw [List.countP_append,List.countP_singleton]
      cases done : o.finished with
      | false => simpa using before
      | true =>
        have free' : ∀ o' ∈ middle, o'.pauses = false := fun o' member => free o' (List.mem_append_left _ member)
        have count := @sinceFree front middle free'
        have below := timely (front ++ middle) o back (by rw [split_]; simp)
        cases o with
        | timer exit delay => contradiction
        | returned rc =>
          have room : sincePause (front ++ middle) < conf.batchSize := below done
          simp only [if_true]
          omega
  · obtain ⟨lasts,whole⟩ := timely front _ back split_
    obtain ⟨earlier,since,split',bounded,free,count⟩ := sinceSplit front
    exact ⟨lasts,earlier,since,split',bounded,free,count.symm.trans whole⟩
  · exact timely front _ back split_

def batchEvents : List BatchEvent :=
  [.timer ⟨0,fun i => if i = 0 then ⟨.declined,true,false,0⟩ else ⟨.busy,false,false,0⟩,false⟩,
    .timer ⟨1,fun _ => ⟨.declined,true,false,1⟩,false⟩,
    .timer ⟨101,fun i => if i = 0 then ⟨.declined,true,false,101⟩ else ⟨.ok,true,false,101⟩,false⟩]

theorem batchContractThree : (batchMachine ⟨2,100⟩).outputs batchInit batchEvents =
    [.returned .declined,.returned .busy,.timer .busy 1,.returned .declined,.timer .full 100,
      .returned .declined,.returned .ok,.timer .empty 1000] ∧
    ∀ front middle back, (batchMachine ⟨2,100⟩).outputs batchInit batchEvents = front ++ middle ++ back →
      (∀ o ∈ middle, o.pauses = false) → middle.countP BatchOutput.finished ≤ 2 := by
  refine ⟨?_,(batchContract ⟨2,100⟩ (by decide) batchEvents).1⟩
  simp [batchEvents,batchMachine,batchInit,BatchState.step,batchHandler,batchLoop,BatchAnswer.delay,age,reached,walkMsec]

/-! The event loop of Background asks ngx_http_cache_purge_process_queue itself. -/

def BackgroundOutput.pause : BackgroundOutput → Option (Exit × Nat)
  | .paused exit delay => some (exit,delay)
  | _ => none

def BatchOutput.pause : BatchOutput → Option (Exit × Nat)
  | .returned _ => none
  | .timer exit delay => some (exit,delay)

section drains
variable {config : Config} {pid : Pid} {conf : BackgroundConf}

def Background.idles (pid : Pid) (b : Background) : Bool := (b.system.find pid).all fun p => p.work.item.isNone

def Background.waits (pid : Pid) (b : Background) : Bool :=
  (b.system.find pid).any fun p => p.work.pool && !p.work.started

def queueAnswer (config : Config) (pid : Pid) (a : Iteration) (b : Background) : BatchAnswer :=
  let part := processQueue config pid a b
  ⟨part.rc.getD .declined,part.state.idles pid,part.state.waits pid,a.clock⟩

def drainStates (config : Config) (pid : Pid) (answers : Nat → Iteration) (b : Background) : Nat → Background
  | 0 => b
  | i + 1 =>
    let before := drainStates config pid answers b i
    {(processQueue config pid (answers i) before).state with batch := before.batch + 1}

structure Unpaused (b : Background) (part : Part) : Prop where
  timer : part.state.timer = b.timer
  batch : part.state.batch = b.batch
  task : part.state.taskTimer = true → b.taskTimer = true ∨ part.rc = some .done
  quiet : part.out.filterMap BackgroundOutput.pause = []

theorem unpausedTask {b : Background} {part : Part} (quiet : Unpaused b part) (other : part.rc ≠ some .done)
    (set_ : part.state.taskTimer = true) : b.taskTimer = true := (quiet.task set_).resolve_right other

theorem unpausedThen {b : Background} {part : Part} {next : Background → Part} (first : Unpaused b part)
    (second : ∀ b', Unpaused b' (next b')) : Unpaused b (part.andThen next) := by
  rw [Part.andThen]
  split
  · exact first
  · rename_i open_
    obtain ⟨timer,batch,task,quiet⟩ := second part.state
    refine ⟨timer.trans first.timer,batch.trans first.batch,fun set_ => ?_,?_⟩
    · rcases task set_ with before | now
      · exact .inl (unpausedTask first (by simp [open_]) before)
      · exact .inr now
    · rw [List.filterMap_append,first.quiet,quiet]
      rfl

theorem ownUnpaused {part : Process → Background → Part} (each : ∀ p b, Unpaused b (part p b)) (b : Background) :
    Unpaused b (b.own pid part) := by
  rw [Background.own]
  split
  · exact ⟨rfl,rfl,.inl,rfl⟩
  · exact each _ b

theorem othersUnpaused {b : Background} {events : List WorkerEvent} {part : Part}
    (rest : Unpaused (b.others config pid events) part) : Unpaused b part :=
  ⟨rest.timer,rest.batch,rest.task,rest.quiet⟩

theorem takeUnpaused (a : Iteration) (p : Process) (b : Background) : Unpaused b (takePart config a p b) := by
  rw [takePart]
  split
  · exact ⟨rfl,rfl,.inl,rfl⟩
  · refine ⟨rfl,rfl,.inl,?_⟩
    rw [List.filterMap_map]
    exact List.filterMap_eq_nil_iff.mpr fun _ _ => rfl

theorem walkUnpaused (a : Iteration) (p : Process) (b : Background) : Unpaused b (walkPart a p b) := by
  rw [walkPart]
  split
  · refine ⟨rfl,rfl,fun set_ => ?_,?_⟩
    · cases posted : a.posted with
      | false => exact .inl (by simpa [posted] using set_)
      | true => exact .inr (by simp [postTask])
    · simp only
      split
      · rw [List.filterMap_map]
        exact List.filterMap_eq_nil_iff.mpr fun _ _ => rfl
      · rfl
  · split <;> exact ⟨rfl,rfl,.inl,rfl⟩

theorem passUnpaused (q : Queue) (w : Work) : (passEnd q w).filterMap BackgroundOutput.pause = [] := by
  rw [passEnd]
  split
  · rfl
  · rename_i t _
    cases q.items t <;> rfl

theorem endUnpaused (a : Iteration) (p : Process) (b : Background) : Unpaused b (endPart a p b) := by
  refine ⟨rfl,rfl,.inl,?_⟩
  rw [endPart]
  simp only
  split
  · exact passUnpaused b.system.queue p.work
  · rfl

theorem queueUnpaused (a : Iteration) (b : Background) : Unpaused b (processQueue config pid a b) := by
  refine unpausedThen (unpausedThen (ownUnpaused (takeUnpaused a) b) fun b' => ?_) fun b' => ?_
  · exact othersUnpaused (ownUnpaused (walkUnpaused a) (b'.others config pid a.between))
  · exact othersUnpaused (ownUnpaused (endUnpaused a) (b'.others config pid a.later))

structure Drains (pid : Pid) (b : Background) (ended : Exit × Nat × BatchAnswer × List BatchOutput)
    (made : Exit × Background × List BackgroundOutput) : Prop where
  exit : ended.1 = made.1
  batch : ended.2.1 = made.2.1.batch
  idle : ended.2.2.1.idle = made.2.1.idles pid
  waiting : ended.2.2.1.waiting = made.2.1.waits pid
  timer : made.2.1.timer = b.timer
  task : made.2.1.taskTimer = true → b.taskTimer = true ∨ made.1 = .posted
  calls : ended.2.2.2.filterMap BatchOutput.pause = []
  quiet : made.2.2.filterMap BackgroundOutput.pause = []

@[simp] theorem queueAnswerClock (a : Iteration) (b : Background) : (queueAnswer config pid a b).clock = a.clock := rfl

theorem answerOther {a : Iteration} {b : Background} {rc : Rc} (apart : rc ≠ .declined)
    (code : (processQueue config pid a b).rc ≠ some rc) : (queueAnswer config pid a b).rc ≠ rc := by
  rw [queueAnswer]
  cases given : (processQueue config pid a b).rc with
  | none => exact apart.symm
  | some rc' => exact fun same => code (given.trans (congrArg some same))

theorem batchLoopOther {start : UInt64} {answers : Nat → BatchAnswer} {i : Nat} {a : Iteration} {b : Background}
    (here : answers i = queueAnswer config pid a b) (done : (processQueue config pid a b).rc ≠ some .done)
    (ok : (processQueue config pid a b).rc ≠ some .ok) (busy : (processQueue config pid a b).rc ≠ some .busy)
    (batch : Nat) : batchLoop conf start answers i batch =
      if conf.batchSize ≤ batch + 1 then (.full,0,answers i,[.returned (answers i).rc])
      else if walkMsec ≤ (age (answers i).clock start).toNat then (.clock,batch + 1,answers i,[.returned (answers i).rc])
      else
        let rest := batchLoop conf start answers (i + 1) (batch + 1)
        (rest.1,rest.2.1,rest.2.2.1,.returned (answers i).rc :: rest.2.2.2) := by
  have notDone : (answers i).rc ≠ .done := here ▸ answerOther (by decide) done
  have notOk : (answers i).rc ≠ .ok := here ▸ answerOther (by decide) ok
  have notBusy : (answers i).rc ≠ .busy := here ▸ answerOther (by decide) busy
  rw [batchLoop]
  split <;> first | contradiction | rfl

theorem drainBatches (start : UInt64) (answers : Nat → Iteration) (b₀ : Background) (i : Nat) (b : Background)
    (here : drainStates config pid answers b₀ i = b) :
    Drains pid b
      (batchLoop conf start (fun j => queueAnswer config pid (answers j) (drainStates config pid answers b₀ j)) i b.batch)
      (drain config pid conf start answers i b) := by
  fun_induction drain config pid conf start answers i b with
  | case1 i b part =>
    rename_i code
    have quiet := @queueUnpaused config pid (answers i) b
    have answer : (queueAnswer config pid (answers i) b).rc = .done := by rw [queueAnswer,code]; rfl
    rw [batchLoop,here,answer]
    exact ⟨rfl,quiet.batch.symm,rfl,rfl,quiet.timer,fun _ => .inr rfl,rfl,quiet.quiet⟩
  | case2 i b part =>
    rename_i code
    have quiet := @queueUnpaused config pid (answers i) b
    have answer : (queueAnswer config pid (answers i) b).rc = .ok := by rw [queueAnswer,code]; rfl
    rw [batchLoop,here,answer]
    exact ⟨rfl,rfl,rfl,rfl,quiet.timer,
      fun set_ => .inl (unpausedTask quiet (by rw [code]; decide) set_),rfl,quiet.quiet⟩
  | case3 i b part =>
    rename_i code
    have quiet := @queueUnpaused config pid (answers i) b
    have answer : (queueAnswer config pid (answers i) b).rc = .busy := by rw [queueAnswer,code]; rfl
    rw [batchLoop,here,answer]
    exact ⟨rfl,quiet.batch.symm,rfl,rfl,quiet.timer,
      fun set_ => .inl (unpausedTask quiet (by rw [code]; decide) set_),rfl,quiet.quiet⟩
  | case4 i b part full done ok busy =>
    have quiet := @queueUnpaused config pid (answers i) b
    subst here
    rw [batchLoopOther rfl done ok busy,if_pos full]
    exact ⟨rfl,rfl,rfl,rfl,quiet.timer,fun set_ => .inl (unpausedTask quiet done set_),rfl,quiet.quiet⟩
  | case5 i b part more next late done ok busy =>
    have quiet := @queueUnpaused config pid (answers i) b
    subst here
    rw [batchLoopOther rfl done ok busy,if_neg more,queueAnswerClock,if_pos late]
    exact ⟨rfl,rfl,rfl,rfl,quiet.timer,fun set_ => .inl (unpausedTask quiet done set_),rfl,quiet.quiet⟩
  | case6 i b part more next early rest done ok busy =>
    rename_i ih
    have quiet := @queueUnpaused config pid (answers i) b
    subst here
    rw [batchLoopOther rfl done ok busy,if_neg more,queueAnswerClock,if_neg early]
    obtain ⟨exit,batch,idle,waiting,timer,task,calls,later⟩ := ih rfl
    refine ⟨exit,batch,idle,waiting,timer.trans quiet.timer,fun set_ => ?_,calls,?_⟩
    · rcases task set_ with before | posted
      · exact .inl (unpausedTask quiet done before)
      · exact .inr posted
    · rw [List.filterMap_append,quiet.quiet,later]
      rfl

structure Follows (s : BatchState) (b : Background) : Prop where
  batch : s.batch = b.batch
  timer : b.timer = true → s.timer = true
  task : b.taskTimer = true → s.inFlight = true

theorem handlerFollows {s : BatchState} {b : Background} (follows : Follows s b) (a : Wakeup) (p : Process) :
    ∃ c : BatchCall, Follows (batchHandler conf c s).1 (backgroundHandler config pid conf a p b).1 ∧
      (batchHandler conf c s).2.filterMap BatchOutput.pause =
        (backgroundHandler config pid conf a p b).2.filterMap BackgroundOutput.pause := by
  have kept : (b.recovered a p).batch = b.batch ∧ (b.recovered a p).timer = b.timer ∧
      (b.recovered a p).taskTimer = b.taskTimer := by
    rw [Background.recovered]
    split <;> exact ⟨rfl,rfl,rfl⟩
  have same := @drainBatches config pid conf a.now a.iterations ((b.recovered a p).others config pid a.between) 0 _ rfl
  let answers (j : Nat) := queueAnswer config pid (a.iterations j)
    (drainStates config pid a.iterations ((b.recovered a p).others config pid a.between) j)
  let left := drain config pid conf a.now a.iterations 0 ((b.recovered a p).others config pid a.between)
  refine ⟨⟨a.now,answers,(left.2.1.system.find pid).all fun p => p.leaving⟩,?_⟩
  have counter : ((b.recovered a p).others config pid a.between).batch = s.batch := kept.1.trans follows.batch.symm
  rw [drainStates,counter] at same
  unfold batchHandler backgroundHandler
  simp only [left,answers]
  generalize batchLoop conf _ _ 0 s.batch = ended at same ⊢
  generalize drain config pid conf a.now a.iterations 0 _ = made at same ⊢
  obtain ⟨exit,batch,answer,out⟩ := ended
  obtain ⟨exit',b',out'⟩ := made
  obtain ⟨rfl,batch_,idle,waiting,timer,task,calls,quiet⟩ := same
  simp only at batch_ idle waiting timer task calls quiet ⊢
  have armed (set_ : b'.timer = true) : s.timer = true := follows.timer ((timer.trans kept.2.1).symm.trans set_)
  have flying (set_ : b'.taskTimer = true) : s.inFlight = true ∨ exit = .posted :=
    (task set_).imp_left fun before => follows.task (kept.2.2.symm.trans before)
  by_cases posted : exit = .posted
  · subst posted
    exact ⟨⟨batch_,armed,fun _ => rfl⟩,calls.trans quiet.symm⟩
  · rw [if_neg posted]
    rw [Background.idles] at idle
    rw [Background.waits] at waiting
    cases found : b'.system.find pid with
    | none =>
      rw [found] at idle
      simp only [idle,Option.all_none,Bool.and_self,if_true]
      exact ⟨⟨batch_,armed,fun set_ => (flying set_).resolve_right posted⟩,calls.trans quiet.symm⟩
    | some p' =>
      rw [found,Option.all_some] at idle
      rw [found,Option.any_some] at waiting
      simp only [idle,Option.all_some]
      have delay : answer.delay conf exit = exit.delay conf p'.work := by
        cases exit <;> simp [BatchAnswer.delay,Exit.delay,idle,waiting]
      have pauses : (out ++ [BatchOutput.timer exit (answer.delay conf exit)]).filterMap BatchOutput.pause =
          (out' ++ [BackgroundOutput.paused exit (exit.delay conf p'.work)]).filterMap BackgroundOutput.pause := by
        rw [List.filterMap_append,List.filterMap_append,calls,quiet,delay]
        rfl
      have landed (set_ : b'.taskTimer = true) : s.inFlight = true := (flying set_).resolve_right posted
      by_cases leaves : (p'.work.item.isNone && p'.leaving) = true
      · simp only [leaves,if_true]
        cases exit <;> first | contradiction | exact ⟨⟨batch_,armed,landed⟩,calls.trans quiet.symm⟩
      · simp only [leaves]
        cases exit <;> first | contradiction | exact ⟨⟨batch_,fun _ => rfl,landed⟩,pauses⟩

def Following (conf : BackgroundConf) (s : BatchState) (r : Background × List BackgroundOutput) : Prop :=
  ∃ calls : List BatchEvent, Follows ((batchMachine conf).after s calls) r.1 ∧
    ((batchMachine conf).outputs s calls).filterMap BatchOutput.pause = r.2.filterMap BackgroundOutput.pause

theorem followingSilent {s : BatchState} {r : Background × List BackgroundOutput} (follows : Follows s r.1)
    (quiet : r.2.filterMap BackgroundOutput.pause = []) : Following conf s r := ⟨[],follows,quiet.symm⟩

theorem followingCall {s s' : BatchState} {b : Background} (follows : Follows s' b) (a : Wakeup) (p : Process)
    (e : BatchCall → BatchEvent) (step : ∀ c, s.step conf (e c) = batchHandler conf c s') :
    Following conf s (backgroundHandler config pid conf a p b) := by
  obtain ⟨c,next,same⟩ := @handlerFollows config pid conf s' b follows a p
  refine ⟨[e c],?_⟩
  rw [(batchMachine conf).afterCons,(batchMachine conf).outputsCons]
  change Follows (s.step conf (e c)).1 _ ∧ ((s.step conf (e c)).2 ++ []).filterMap _ = _
  rw [step,List.append_nil]
  exact ⟨next,same⟩

theorem stepFollows {slot : Slot} {start : System} {past : List BackgroundOutput} {s : BatchState} {b : Background}
    {p : Process} (attended : Attended config pid slot start past b p) (follows : Follows s b) (e : BackgroundEvent) :
    Following conf s (b.step config pid conf e) := by
  have none_ : Following conf s (b,[]) := followingSilent follows rfl
  have called (e : BackgroundEvent) (call : Following conf s (backgroundCall config pid conf p b e)) :
      Following conf s (if p.exited then (b,[]) else backgroundCall config pid conf p b e) := by
    split
    · exact none_
    · exact call
  cases e with
  | other e => exact followingSilent ⟨follows.batch,follows.timer,follows.task⟩ rfl
  | thread counters =>
    simp only [Background.step,attended.looping.found]
    split
    · exact followingSilent ⟨follows.batch,follows.timer,follows.task⟩ rfl
    · exact none_
  | leave =>
    simp only [Background.step,attended.looping.found]
    exact called _ (followingSilent ⟨follows.batch,follows.timer,follows.task⟩ rfl)
  | enqueue purge o =>
    simp only [Background.step,attended.looping.found]
    exact called _ (followingSilent ⟨follows.batch,follows.timer,follows.task⟩ rfl)
  | timeout =>
    simp only [Background.step,attended.looping.found]
    refine called _ ?_
    rw [backgroundCall]
    split
    · rename_i armed
      exact followingSilent ⟨follows.batch,follows.timer,fun _ => follows.task armed⟩ rfl
    · exact none_
  | timer a =>
    simp only [Background.step,attended.looping.found]
    refine called _ ?_
    rw [backgroundCall]
    split
    · rename_i armed
      have quiet : Follows {s with timer := false} {b with timer := false} :=
        ⟨follows.batch,fun on => Bool.noConfusion on,follows.task⟩
      refine followingCall quiet a p .timer fun c => ?_
      rw [BatchState.step,if_pos (follows.timer armed)]
    · exact none_
  | notify a =>
    simp only [Background.step,attended.looping.found]
    refine called _ ?_
    rw [backgroundCall]
    split
    · rename_i posted
      have flying : s.inFlight = true := follows.task (attended.task.trans (Bool.and_eq_true_iff.mp posted).1)
      have quiet : Follows {s with inFlight := false}
          {b with
            system := (b.system.step config (.notify pid)).1
            taskTimer := false} := ⟨follows.batch,follows.timer,fun on => Bool.noConfusion on⟩
      refine followingCall quiet a p .completion fun c => ?_
      rw [BatchState.step,if_pos flying]
    · exact none_
  | exit now closed =>
    simp only [Background.step,attended.looping.found]
    refine called _ (followingSilent ⟨follows.batch,fun on => Bool.noConfusion on,follows.task⟩ ?_)
    rw [backgroundCall]
    simp only
    split
    · rfl
    · exact passUnpaused _ _

end drains

theorem backgroundBatches {config : Config} {conf : BackgroundConf} {pid : Pid} {slot : Slot} {threaded : Bool}
    {namespaces : List Nat} {start : System} (valid : start.Valid)
    (started : start.find pid = some ⟨pid,slot,false,false,.idle threaded,namespaces⟩)
    (events : List BackgroundEvent) : ∃ calls : List BatchEvent,
      ((batchMachine conf).outputs batchInit calls).filterMap BatchOutput.pause =
        ((backgroundMachine config pid conf).outputs (backgroundInit start) events).filterMap BackgroundOutput.pause := by
  have tracked := (backgroundMachine config pid conf).tracks (s := backgroundInit start)
    (P := fun out b => (∃ p, Attended config pid slot start out b p) ∧ ∃ calls : List BatchEvent,
      Follows ((batchMachine conf).after batchInit calls) b ∧
      ((batchMachine conf).outputs batchInit calls).filterMap BatchOutput.pause = out.filterMap BackgroundOutput.pause)
    ⟨⟨_,attendedStart valid started⟩,[],⟨rfl,fun _ => rfl,fun on => Bool.noConfusion on⟩,rfl⟩
    (fun out b e ⟨⟨p,attended⟩,calls,follows,same⟩ => by
      obtain ⟨p',attended',_⟩ := @stepAttends config pid slot start out b p conf attended e
      obtain ⟨more,follows',same'⟩ := @stepFollows config pid conf slot start out _ b p attended follows e
      refine ⟨⟨p',attended'⟩,calls ++ more,?_,?_⟩
      · rw [(batchMachine conf).afterAppend]
        exact follows'
      · rw [(batchMachine conf).outputsAppend,List.filterMap_append,List.filterMap_append,same,same']
        rfl) events
  obtain ⟨_,calls,_,same⟩ := tracked
  exact ⟨calls,same⟩

end CachePurge
