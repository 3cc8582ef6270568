import CachePurge.WorkerSteps
import Mathlib.Logic.Relation

/-! A step of the workers as the shared queue sees it: a chain of sections, each an
accounted change in the slot of the process that acts or the end of its
registration; only the start of a process brings a new one. -/
namespace CachePurge
open General

inductive Section (procs : List Process) : Queue → Queue → Prop where
  | accounted {p q q' act} (member : p ∈ procs) (entry : Accounted (some p.slot) q act q') : Section procs q q'
  | deregister {p q} (member : p ∈ procs) : Section procs q (deregister p.slot q)

abbrev Sections (procs : List Process) : Queue → Queue → Prop := Relation.ReflTransGen (Section procs)

def Inherits (s s' : System) : Prop := ∀ p' ∈ s'.procs, ∃ p ∈ s.procs, p'.pid = p.pid ∧ p'.slot = p.slot

inductive Stepped (s : System) : System → Prop where
  | started {pid : Pid} {slot : Slot} {threaded : Bool} {namespaces : List Nat} {q' : Queue} (named : pid ≠ 0)
      (pids : ∀ p ∈ s.procs, p.pid ≠ pid) (slots : ∀ p ∈ s.procs, p.slot ≠ slot)
      (init : initWorker none pid slot s.queue = some q') :
      Stepped s {s with queue := q', procs := s.procs ++ [⟨pid,slot,false,false,.idle threaded,namespaces⟩]}
  | worked {s' : System} (inherits : Inherits s s') (sections : Sections s.procs s.queue s'.queue) : Stepped s s'

/- Every process has a slot and a name of its own. -/
def System.Seated (s : System) : Prop := ∀ p ∈ s.procs, p.slot < maxProcesses ∧ p.pid ≠ 0

theorem seatedStepped {s s' : System} (seated : s.Seated) (stepped : Stepped s s') : s'.Seated := by
  intro p' inside
  cases stepped with
  | started named _ _ init =>
    obtain ⟨_,_,_,_,_,_,_,_,_,_,_,within⟩ := initWorkerSpec init
    rcases List.mem_append.mp inside with old | new
    · exact seated p' old
    · rw [List.mem_singleton.mp new]
      exact ⟨within,named⟩
  | worked inherits _ =>
    obtain ⟨p,member,pid,slot⟩ := inherits p' inside
    rw [pid,slot]
    exact seated p member

section steps
variable {config : Config} {s : System} {p : Process}

theorem reviseInherits {s' : System} (same : s'.procs = s.procs) (pid : Pid) {f : Process → Process}
    (keeps : Process.Keeps f) : Inherits s (s'.revise pid f) := by
  intro p' member
  obtain ⟨p,there,rfl⟩ := List.mem_map.mp member
  refine ⟨p,same ▸ there,?_⟩
  split
  · exact ⟨keeps.pid p,keeps.slot p⟩
  · exact ⟨rfl,rfl⟩

theorem sameInherits {s' : System} (same : s'.procs = s.procs) : Inherits s s' :=
  fun p' member => ⟨p',same ▸ member,rfl,rfl⟩

theorem revised (pid : Pid) {f : Process → Process} (keeps : Process.Keeps f) : Stepped s (s.revise pid f) :=
  .worked (reviseInherits rfl pid keeps) .refl

theorem unmoved : Stepped s s := .worked (sameInherits rfl) .refl

theorem enqueueStepped (valid : s.Valid) (member : p ∈ s.procs) (purge : Purge) (o : Outcome) :
    Stepped s (enqueueStep config p purge o s).1 := by
  refine .worked (sameInherits rfl) ?_
  change Sections s.procs s.queue
    (enqueue config.platform config.names (some p.slot) p.leaving purge o s.queue s.zones).2.1
  rcases eq_or_ne (enqueue config.platform config.names (some p.slot) p.leaving purge o s.queue s.zones).1 .ok with
    ok | refused
  · obtain ⟨_,_,a,t,_,⟨_,_,_,_,entry⟩ | entry⟩ := enqueueAccepted valid.queue.toCatalog ok
    · exact .single (.accounted member entry)
    · exact .single (.accounted member entry)
  · rw [enqueueRefused refused]

theorem recoverStepped (member : p ∈ s.procs) (now : UInt64) (locked : Bool) (claims : Pid → Bool) :
    Stepped s (recoverStep p now locked claims s).1 := by
  refine .worked (sameInherits rfl) ?_
  refine @recoverInvariant (some p.slot) (s.alive claims) now (fun _ q => Sections s.procs s.queue q)
    (fun _ q chain => ?_) [] s.queue .refl locked
  rcases @recoverOneChange (some p.slot) (s.alive claims) now q with ⟨_,entry⟩ | ⟨_,_,_,_,_,_,entry⟩
  · exact chain.tail (.accounted member entry)
  · exact chain.tail (.accounted member entry)

theorem takeStepped (member : p ∈ s.procs) (now : UInt64) (locked poolFound : Bool) :
    Stepped s (takeStep config p now locked poolFound s).1 := by
  unfold takeStep
  split
  · exact unmoved
  · refine .worked (reviseInherits rfl p.pid (workKeeps _)) ?_
    rcases @takeOutcome p.slot now config.names p.namespaces p.pid s.queue p.work p.leaving locked
      poolFound with ⟨_,entry⟩ | ⟨_,_,_,_,_,entry⟩
    · exact .single (.accounted member entry)
    · exact .single (.accounted member entry)

/- The last section of a pass, for the task that the process holds. -/
theorem endSection (valid : s.Valid) (member : p ∈ s.procs) {t : TaskId} (holds : p.work.item = some t)
    (now : UInt64) (w : Work) : ∃ item, s.queue.items t = some item ∧
      Section s.procs s.queue (endTask p.slot now t item w s.queue) := by
  have holding := valid.holding p member t holds
  obtain ⟨item,here,_⟩ := holding.holder
  refine ⟨item,here,?_⟩
  rcases @endTaskChange p.slot now t item s.queue w here holding.held with ⟨_,entry⟩ | ⟨_,_,entry⟩
  · exact .accounted member entry
  · exact .accounted member entry

theorem finishStepped (valid : s.Valid) (member : p ∈ s.procs) (now : UInt64) (locked : Bool) :
    Stepped s (finishStep p now locked s).1 := by
  unfold finishStep
  split
  · exact unmoved
  · rename_i t holds
    split
    · refine .worked (reviseInherits rfl p.pid (workKeeps _)) ?_
      obtain ⟨item,here,done⟩ := endSection valid member holds now p.work
      change Sections s.procs s.queue (finishTask p.slot false now locked s.queue p.work).2.1
      cases locked with
      | false => exact .refl
      | true => simpa [finishTask,holds,here] using Relation.ReflTransGen.single done
    · exact unmoved

theorem exitStepped (valid : s.Valid) (member : p ∈ s.procs) (now closed : UInt64) :
    Stepped s (exitStep p now closed s).1 := by
  refine .worked (reviseInherits rfl p.pid ⟨fun _ => rfl,fun _ => rfl,fun _ h => by simp at h⟩) ?_
  change Sections s.procs s.queue (exitWorker p.slot now closed s.queue p.work).1
  unfold exitWorker
  split
  · exact .refl
  · dsimp only
    split
    · rename_i held
      obtain ⟨t,holds⟩ := Option.isSome_iff_exists.mp held
      obtain ⟨item,here,done⟩ := endSection valid member holds now (p.work.closing closed)
      have closing : (p.work.closing closed).item = some t := holds
      simp only [finishTask,closing,here,Bool.not_true,Bool.false_and,Bool.false_eq_true,if_false]
      exact (Relation.ReflTransGen.single done).tail (.deregister member)
    · exact .single (.deregister member)

theorem processStepped (valid : s.Valid) (member : p ∈ s.procs) (e : WorkerEvent) :
    Stepped s (processStep config p s e).1 := by
  have keeps (w : Work) (pid : Pid) : Stepped s (s.setWork pid w) := revised pid (workKeeps w)
  cases e with
  | start _ _ _ _ => exact unmoved
  | gone _ => exact unmoved
  | thread _ _ => exact unmoved
  | leave pid => exact revised pid ⟨fun _ => rfl,fun _ => rfl,fun _ h => h⟩
  | enqueue _ purge o => exact enqueueStepped valid member purge o
  | recover _ now locked claims => exact recoverStepped member now locked claims
  | take _ now locked poolFound => exact takeStepped member now locked poolFound
  | post pid posted =>
    simp only [processStep]
    split
    · exact keeps _ pid
    · exact unmoved
  | notify pid =>
    simp only [processStep]
    split
    · exact keeps _ pid
    · exact unmoved
  | slice pid again counters =>
    simp only [processStep]
    split
    · exact keeps _ pid
    · exact unmoved
  | finish _ now locked => exact finishStepped valid member now locked
  | exit _ now closed => exact exitStepped valid member now closed

theorem stepStepped (valid : s.Valid) (e : WorkerEvent) : Stepped s (s.step config e).1 := by
  have ways := stepCases config s e
  generalize s.step config e = out at ways ⊢
  cases ways with
  | idle => exact unmoved
  | started named pids slots init => exact .started named pids slots init
  | gone =>
    refine .worked (fun p' member => ⟨p',?_,rfl,rfl⟩) .refl
    exact (List.mem_filter.mp member).1
  | @threaded pid counters p found => exact revised pid (workKeeps _)
  | processed found running => exact processStepped valid (findMember found).1 e

end steps
end CachePurge
