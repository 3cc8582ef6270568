import CachePurge.WorkerTurns

/-! Every step of the workers is a list of turns, so that what the turns keep
holds in every run. -/
namespace CachePurge
open General

section steps
variable {config : Config} {picked : Option (Process × Item)} {s : System}

theorem reviseTwice {pid : Pid} {f g : Process → Process} (keeps : ∀ p, (f p).pid = p.pid) :
    (s.revise pid f).revise pid g = s.revise pid (g ∘ f) := by
  simp only [System.revise,List.map_map]
  congr 1
  refine List.map_congr_left fun p _ => ?_
  dsimp only [Function.comp]
  split
  · rename_i mine
    simp [keeps,mine]
  · simp

theorem reviseInside {p : Process} {f : Process → Process} (member : p ∈ s.procs) :
    f p ∈ (s.revise p.pid f).procs :=
  List.mem_map.mpr ⟨p,member,by simp⟩

theorem workKeeps (w : Work) : Process.Keeps fun p => {p with work := w} :=
  ⟨fun _ => rfl,fun _ => rfl,fun _ h => h⟩

theorem enqueueTurns (valid : s.Valid) (p : Process) (purge : Purge) (o : Outcome) :
    Turns config picked s (enqueueStep config p purge o s).2 (enqueueStep config p purge o s).1 := by
  unfold enqueueStep
  dsimp only
  split
  · rename_i ok
    obtain ⟨_,_,a,t,found,done⟩ := enqueueAccepted valid.queue.toCatalog ok
    rw [found]
    rcases done with ⟨item,here,path,key,change,_⟩ | ⟨change,_⟩
    · exact Trace.once (.renew here path key change)
    · exact Trace.once (.accept change)
  · rename_i refused
    rw [enqueueRefused refused]
    exact .done

theorem recoverTurns (valid : s.Valid) (p : Process) (now : UInt64) (locked : Bool) (claims : Pid → Bool) :
    Turns config picked s (recoverStep p now locked claims s).2 (recoverStep p now locked claims s).1 := by
  have loop := @recoverInvariant (some p.slot) (s.alive claims) now
    (fun past q => ({s with queue := q} : System).Valid ∧
      Turns config picked s (past.map fun ended => .recovered ended.1 ended.2) {s with queue := q})
    (fun past q ⟨valid',turns⟩ => by
      have next : ∃ out, (recoverOne (some p.slot) (s.alive claims) now q).2.toList.map
          (fun ended => QueueOutput.recovered ended.1 ended.2) = out ∧
          Turn config picked {s with queue := q} out
            {s with queue := (recoverOne (some p.slot) (s.alive claims) now q).1} := by
        rcases recoverOneChange q with ⟨none_,change,_⟩ | ⟨t,item,here,held,dead,some_,change,_⟩
        · exact ⟨[],by rw [none_]; rfl,.shuffle change⟩
        · exact ⟨_,by rw [some_]; rfl,.recovered here held dead change⟩
      obtain ⟨out,same,turn⟩ := next
      refine ⟨turnValid valid' turn,?_⟩
      rw [List.map_append,same]
      exact Trace.trans turns (Trace.once turn)) [] s.queue ⟨valid,.done⟩ locked
  exact loop.2

theorem takeTurns {pid : Pid} (p : Process) (found : s.find pid = some p) (running : p.exited = false) (now : UInt64)
    (locked poolFound : Bool) : Turns config (s.picks (.take pid now locked poolFound))
      s (takeStep config p now locked poolFound s).2 (takeStep config p now locked poolFound s).1 := by
  have member := (findMember found).1
  unfold takeStep
  split
  · exact .done
  · rename_i idle
    have empty : p.work.item = none := by simpa using idle
    have perm := selectReadyPerm s.queue.items now (min s.queue.size walkEntries) s.queue.pending
    have ways := @takeCases p.slot now config.names p.namespaces p.pid s.queue p.work p.leaving locked poolFound
    have same : Turn config (s.picks (.take pid now locked poolFound)) s [] (s.setWork p.pid p.work) :=
      .alone member (workKeeps p.work) rfl id
    cases locked with
    | false =>
      have kept : takeTask config.names p.namespaces p.pid p.slot p.leaving now false poolFound s.queue p.work =
          (if p.leaving then some .ok else some .busy,s.queue,p.work) := by
        unfold takeTask
        cases p.leaving <;> rfl
      dsimp only
      rw [kept,empty]
      exact Trace.once same
    | true =>
      dsimp only
      generalize takeTask config.names p.namespaces p.pid p.slot p.leaving now true poolFound s.queue p.work =
        taken at ways
      cases ways with
      | idle => simpa only [empty] using Trace.once same
      | @turned pending selected =>
        rw [selected] at perm
        have change : Change s.queue .shuffle {s.queue with pending := pending} :=
          .shuffle ⟨rfl,rfl,fun _ => rfl,rfl,rfl,rfl⟩ perm.symm (.refl _) rfl rfl rfl fun _ => rfl
        have alone : Turn config (s.picks (.take pid now true poolFound))
            ({s with queue := {s.queue with pending := pending}} : System) []
            (({s with queue := {s.queue with pending := pending}} : System).setWork p.pid p.work) :=
          .alone member (workKeeps p.work) rfl id
        simp only [empty]
        exact Trace.more (Turn.shuffle change) (Trace.once alone)
      | @started t item rest staying selected here =>
        have this : s.picks (.take pid now true poolFound) = some (p,item) := by
          simp [System.picks,found,running,staying,empty,selected,here]
        rw [selected] at perm
        have waiting : t ∈ s.queue.pending := perm.mem_iff.mpr List.mem_cons_self
        simp only [beginHolds,System.identity,here,Option.map_some,Option.toList_some]
        exact Trace.once (.take member here waiting running this (startTaskChange here perm))

theorem endTurn (valid : s.Valid) {p : Process} (member : p ∈ s.procs) {t : TaskId}
    (holds : p.work.item = some t) {w : Work} (complete : w.complete = p.work.complete)
    (now : UInt64) :
    ∃ item, s.queue.items t = some item ∧ Turn config picked s [.finished (s.owner p) t]
      ({s with queue := endTask p.slot now t item w s.queue}.revise p.pid
        fun r => {r with work := w.emptied}) := by
  have holding := valid.holding p member t holds
  obtain ⟨item,here,_⟩ := holding.holder
  refine ⟨item,here,?_⟩
  rcases @endTaskChange p.slot now t item s.queue w here holding.held with
    ⟨item',change,_⟩ | ⟨steady,whole,change,_⟩
  · exact .requeue member holds (workKeeps w.emptied) rfl change
  · exact .retire member holds (workKeeps w.emptied) rfl here steady (complete ▸ whole) change

theorem finishTurns (valid : s.Valid) (p : Process) (member : p ∈ s.procs) (now : UInt64) (locked : Bool) :
    Turns config picked s (finishStep p now locked s).2 (finishStep p now locked s).1 := by
  unfold finishStep
  split
  · exact .done
  · rename_i t holds
    split
    · dsimp only
      cases locked with
      | false =>
        have same : Turn config picked s [] (s.setWork p.pid p.work) := .alone member (workKeeps p.work) rfl id
        simpa [finishTask,holds] using Trace.once same
      | true =>
        obtain ⟨item,here,turn⟩ := @endTurn config picked s valid p member t holds p.work rfl now
        simp only [finishTask,holds,here,Bool.not_true,Bool.and_false,Bool.false_eq_true,if_false,
          Work.emptied]
        exact Trace.once turn
    · exact .done

theorem exitTurns (valid : s.Valid) (p : Process) (member : p ∈ s.procs) (now closed : UInt64) :
    Turns config picked s (exitStep p now closed s).2 (exitStep p now closed s).1 := by
  have keeps (w : Work) : Process.Keeps fun r => {r with work := w, exited := true} :=
    ⟨fun _ => rfl,fun _ => rfl,fun _ h => by simp at h⟩
  rcases Bool.eq_false_or_eq_true (p.work.active && !p.work.finished) with busy | free
  · -- The pool thread still runs: only the process has left.
    unfold exitStep
    dsimp only
    rw [exitBusy busy]
    have left : Turn config picked s [] (s.revise p.pid fun r => {r with work := p.work, exited := true}) :=
      .alone member (keeps p.work) rfl id
    cases holds : p.work.item with
    | none => exact Trace.once left
    | some t => exact Trace.once left
  · cases holds : p.work.item with
    | none =>
      unfold exitStep
      dsimp only
      rw [exitEmpty free holds,holds]
      exact Trace.once (.deregister member holds (keeps p.work) rfl holds)
    | some t =>
      obtain ⟨item,here,turn⟩ := @endTurn config picked s valid p member t holds (p.work.closing closed) rfl now
      unfold exitStep
      dsimp only
      rw [exitHolding free holds here,holds]
      generalize endTask p.slot now t item (p.work.closing closed) s.queue = q₁ at turn
      let empty (r : Process) : Process := {r with work := (p.work.closing closed).emptied}
      let leave (r : Process) : Process :=
        {r with work := (p.work.closing closed).emptied, exited := true}
      have inside := @reviseInside {s with queue := q₁} p empty member
      have last : Turn config picked ({s with queue := q₁}.revise p.pid empty) []
          (({s with queue := deregister p.slot q₁}.revise p.pid empty).revise p.pid leave) :=
        .deregister (p := empty p) inside rfl (keeps (p.work.closing closed).emptied) rfl rfl
      rw [@reviseTwice _ p.pid empty leave fun _ => rfl] at last
      exact Trace.more turn (Trace.once last)

theorem processTurns (valid : s.Valid) (p : Process) (running : p.exited = false)
    (e : WorkerEvent) (found : s.find e.pid = some p) :
    Turns config (s.picks e) s (processStep config p s e).2 (processStep config p s e).1 := by
  obtain ⟨member,mine⟩ := findMember found
  cases e with
  | start _ _ _ _ => exact .done
  | gone _ => exact .done
  | thread _ _ => exact .done
  | leave pid =>
    subst mine
    exact Trace.once (.alone member ⟨fun _ => rfl,fun _ => rfl,fun _ h => h⟩ rfl id)
  | enqueue pid purge o => exact enqueueTurns valid p purge o
  | recover pid now locked claims => exact recoverTurns valid p now locked claims
  | take pid now locked poolFound => exact takeTurns p found running now locked poolFound
  | post pid posted =>
    subst mine
    simp only [processStep]
    split
    · refine Trace.once (.alone member (workKeeps _) ?_ ?_) <;> cases posted <;> simp [postTask]
    · exact .done
  | notify pid =>
    subst mine
    simp only [processStep]
    split
    · exact Trace.once (.alone member (workKeeps _) rfl id)
    · exact .done
  | slice pid again counters =>
    subst mine
    simp only [processStep]
    split
    · cases again with
      | true => exact Trace.once (.alone member (workKeeps _) rfl fun h => by simp [sliceTask] at h)
      | false => exact Trace.once (.walk member (workKeeps _) rfl)
    · exact .done
  | finish pid now locked => exact finishTurns valid p member now locked
  | exit pid now closed => exact exitTurns valid p member now closed

theorem stepTurns (valid : s.Valid) (e : WorkerEvent) :
    Turns config (s.picks e) s (s.step config e).2 (s.step config e).1 := by
  have ways := stepCases config s e
  generalize s.step config e = out at ways ⊢
  cases ways with
  | idle => exact .done
  | started named pids slots init => exact Trace.once (.start pids slots init)
  | gone => exact Trace.once .gone
  | threaded found =>
    obtain ⟨member,rfl⟩ := findMember found
    exact Trace.once (.walk member (workKeeps _) rfl)
  | processed found running => exact processTurns valid _ running e found

theorem initSystemValid (maxSize : Nat) (paths : List (Nat × Bytes)) (epochs : Nat → Epoch) :
    (systemInit maxSize paths epochs).Valid :=
  ⟨initQueueValid maxSize paths,by simp [systemInit],by simp [systemInit],by simp [systemInit],
    by simp [systemInit]⟩

theorem stepKeepsValid (valid : s.Valid) (e : WorkerEvent) : (s.step config e).1.Valid :=
  Trace.keeps (P := fun _ s => s.Valid)
    (fun _ _ _ _ valid turn => turnValid valid turn) (stepTurns valid e) [] valid

theorem runKeepsValid (valid : s.Valid) (events : List WorkerEvent) :
    ((systemMachine config).after s events).Valid :=
  (systemMachine config).invariant (P := System.Valid) (fun _ e valid => stepKeepsValid valid e) valid events

/- What the turns of a run keep whose steps meet a condition. -/
theorem runKeeps {A : System → WorkerEvent → Bool} {P : List QueueOutput → System → Prop}
    (kept : ∀ start e, A start e = true → ∀ past s out s', s.Valid → P past s → Turn config (start.picks e) s out s' →
      P (past ++ out) s')
    (valid : s.Valid) (start : P [] s) {events : List WorkerEvent} (met : (systemMachine config).along A s events = true) :
    P ((systemMachine config).outputs s events) ((systemMachine config).after s events) := by
  refine ((systemMachine config).tracksAlong (P := fun past s => s.Valid ∧ P past s) ⟨valid,start⟩
    (fun past s e here ⟨valid,held⟩ => ?_) met).2
  exact Trace.keeps (P := fun past s => s.Valid ∧ P past s)
    (fun past s' out s'' ⟨valid,held⟩ turn => ⟨turnValid valid turn,kept s e here past s' out s'' valid held turn⟩)
    (stepTurns valid e) past ⟨valid,held⟩

theorem runInvariant {P : List QueueOutput → System → Prop}
    (kept : ∀ picked past s out s', s.Valid → P past s → Turn config picked s out s' → P (past ++ out) s')
    (valid : s.Valid) (start : P [] s) (events : List WorkerEvent) :
    P ((systemMachine config).outputs s events) ((systemMachine config).after s events) := by
  have always : (systemMachine config).along (fun _ _ => true) s events = true :=
    (systemMachine config).alongTrue s events
  exact runKeeps (fun _ _ _ past s out s' valid held turn => kept _ past s out s' valid held turn) valid start always

end steps

end CachePurge
