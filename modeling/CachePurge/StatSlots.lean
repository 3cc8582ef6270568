import CachePurge.General.Machine
import CachePurge.General.SeqLock
import CachePurge.Queue

/-! The counters of one slot where a pointer has 32 bits: a counter is two words, and the only
writer of a slot makes its sequence odd while it writes them. A status request tries four
times to read all counters between two equal even sequences. A process may die anywhere in
an update; the next one in the slot begins with init_worker. -/
namespace CachePurge
open General

abbrev StatWord := Metric × Bool

def wordsOf (counters : Metric → UInt64) (w : StatWord) : UInt32 :=
  if w.2 then (counters w.1 >>> 32).toUInt32 else (counters w.1).toUInt32

def wholeWord (words : StatWord → UInt32) (field : Metric) : UInt64 :=
  ((words (field,true)).toUInt64 <<< 32) ||| (words (field,false)).toUInt64

/- What a process does to its slot: stat_add, stat_wait by the sign of delta, and the reset
of the waiting counter in init_worker. -/
inductive StatUpdate where
  | add (field : Metric) (value : UInt64)
  | wait (up : Bool)
  | restart
  deriving DecidableEq, Repr

namespace StatUpdate

def field : StatUpdate → Metric
  | .add field _ => field
  | .wait _ | .restart => .waiting

def next (old : UInt64) : StatUpdate → UInt64
  | .add _ value => old + min value (0xFFFFFFFFFFFFFFFF - old)
  | .wait up => if up then old + 1 else if old ≠ 0 then old - 1 else old
  | .restart => 0

def apply (u : StatUpdate) (counters : Metric → UInt64) : Metric → UInt64 :=
  Function.update counters u.field (u.next (counters u.field))

def stores (u : StatUpdate) (old : UInt64) (highFirst : Bool) : List (StatWord × UInt32) :=
  let low := ((u.field,false),(u.next old).toUInt32)
  let high := ((u.field,true),(u.next old >>> 32).toUInt32)
  if u = .wait false ∧ old = 0 then [] else if highFirst then [high,low] else [low,high]

end StatUpdate

/- ngx_http_cache_purge_stat_wait, which knows no counter where the path or the slot is unset. -/
def Queue.statWait (slot : Option Slot) (path : Option Nat) (up : Bool) (q : Queue) : Queue :=
  match slot, path with
  | some slot, some a => q.modifyPath a fun path =>
    let row := Function.update (path.stats slot) .waiting ((StatUpdate.wait up).next (path.stats slot .waiting))
    {path with stats := Function.update path.stats slot row}
  | _, _ => q

structure StatReader where
  tries : Nat
  attempt : Option (SeqLock.Attempt StatWord UInt32 × List StatWord)
  ended : Bool

structure StatSlot where
  lock : SeqLock StatWord UInt32
  update : Option (StatUpdate × List (StatWord × UInt32))
  crashed : Bool
  readers : Nat → StatReader

inductive StatEvent where
  | start (u : StatUpdate) (highFirst : Bool)
  | store
  | finish
  | crash
  | read (r : Nat)
  deriving DecidableEq, Repr

inductive StatOutput where
  | finished (u : StatUpdate)
  | accepted (r : Nat) (got : List (StatWord × UInt32)) (since turns : Nat)
  | gaveUp (r : Nat)
  deriving DecidableEq, Repr

def sequenceRange : Nat := 2 ^ 32

def statTries : Nat := 4

section machine
variable (order : List StatWord)

def StatReader.step (r : Nat) (lock : SeqLock StatWord UInt32) (reader : StatReader) : StatReader × List StatOutput :=
  if reader.ended then (reader,[])
  else match reader.attempt with
  | none =>
    if reader.tries = statTries then ({reader with ended := true},[.gaveUp r])
    else match lock.look with
      | none => ({reader with tries := reader.tries + 1},[])
      | some a => ({reader with attempt := some (a,order)},[])
  | some (a,w :: rest) => ({reader with attempt := some (lock.load w a,rest)},[])
  | some (a,[]) =>
    if a.seen = lock.sequence then
      ({reader with ended := true},[.accepted r a.got a.since lock.turns])
    else ({reader with tries := reader.tries + 1, attempt := none},[])

def StatSlot.step (s : StatSlot) : StatEvent → StatSlot × List StatOutput
  | .start u highFirst =>
    if s.update.isSome || (s.crashed && u != .restart) then (s,[])
    else ({s with
      lock := if u = .restart then s.lock.raise else s.lock.bump sequenceRange
      update := some (u,u.stores (wholeWord s.lock.cells u.field) highFirst)
      crashed := false},[])
  | .store => match s.update with
    | some (u,(w,v) :: rest) => ({s with lock := s.lock.put w v, update := some (u,rest)},[])
    | _ => (s,[])
  | .finish => match s.update with
    | some (u,[]) => ({s with lock := s.lock.bump sequenceRange, update := none},[.finished u])
    | _ => (s,[])
  | .crash => if s.update.isSome then ({s with update := none, crashed := true},[]) else (s,[])
  | .read r =>
    let outcome := (s.readers r).step order r s.lock
    ({s with readers := Function.update s.readers r outcome.1},outcome.2)

def statMachine : Machine StatSlot StatEvent StatOutput := ⟨StatSlot.step order⟩

def statInit : StatSlot := ⟨⟨0,0,fun _ => 0⟩,none,false,fun _ => ⟨0,none,false⟩⟩

@[simp] theorem statStep (s : StatSlot) (e : StatEvent) : (statMachine order).step s e = s.step order e := rfl

end machine

theorem wholeWords (counters : Metric → UInt64) (field : Metric) : wholeWord (wordsOf counters) field = counters field := by
  simp only [wholeWord,wordsOf,if_true,Bool.false_eq_true,if_false]
  apply UInt64.toNat_inj.mp
  have below := (counters field).toNat_lt
  have high : (counters field).toNat / 2^32 < 2^32 := by omega
  simp only [UInt64.toNat_or,UInt64.toNat_shiftLeft,UInt32.toNat_toUInt64,UInt64.toNat_toUInt32,
    UInt64.toNat_shiftRight,show UInt64.toNat 32 % 64 = 32 from rfl,Nat.shiftRight_eq_div_pow]
  rw [Nat.mod_eq_of_lt high,Nat.shiftLeft_eq,Nat.mod_eq_of_lt (by omega),← Nat.shiftLeft_eq,
    ← Nat.shiftLeft_add_eq_or_of_lt (Nat.mod_lt _ (by decide)),Nat.shiftLeft_eq]
  omega

structure StatSlot.Valid (order : List StatWord) (s : StatSlot) : Prop where
  counted : s.lock.Counted sequenceRange
  odd : s.update.isSome = true → s.lock.turns % 2 = 1
  even : s.update = none → s.crashed = false → s.lock.turns % 2 = 0
  sound : ∀ r a left, (s.readers r).attempt = some (a,left) →
    SeqLock.Sound sequenceRange s.lock a ∧ a.got.map Prod.fst ++ left = order

theorem statInitValid (order : List StatWord) : statInit.Valid order :=
  ⟨rfl,by simp [statInit],fun _ _ => rfl,by simp [statInit]⟩

section runs
variable {order : List StatWord}

theorem readerSound {lock : SeqLock StatWord UInt32} (counted : lock.Counted sequenceRange) {r : Nat} {reader : StatReader}
    (sound : ∀ a left, reader.attempt = some (a,left) →
      SeqLock.Sound sequenceRange lock a ∧ a.got.map Prod.fst ++ left = order)
    {a : SeqLock.Attempt StatWord UInt32} {left : List StatWord}
    (now : (reader.step order r lock).1.attempt = some (a,left)) :
    SeqLock.Sound sequenceRange lock a ∧ a.got.map Prod.fst ++ left = order := by
  unfold StatReader.step at now
  split at now
  · exact sound a left now
  · split at now
    · rename_i idle
      split at now
      · exact sound a left now
      · split at now
        · exact sound a left now
        · rename_i began
          cases Option.some.inj now
          refine ⟨SeqLock.soundLook (by decide) counted began,?_⟩
          unfold SeqLock.look at began
          split at began <;> try contradiction
          cases Option.some.inj began
          rfl
    · rename_i a' w rest under
      cases Option.some.inj now
      obtain ⟨sound',listed⟩ := sound _ _ under
      refine ⟨SeqLock.soundLoad sound',?_⟩
      rw [← listed]
      simp [SeqLock.load]
    · rename_i a' under
      split at now
      · exact sound a left now
      · simp at now

theorem statValid (s : StatSlot) (e : StatEvent) (valid : s.Valid order) : (s.step order e).1.Valid order := by
  cases e with
  | start u highFirst =>
    simp only [StatSlot.step]
    split
    · exact valid
    · rename_i free
      simp only [Bool.or_eq_true,Bool.and_eq_true,bne_iff_ne,not_or,not_and,not_not,Bool.not_eq_true,
        Option.isSome_eq_false_iff,Option.isNone_iff_eq_none] at free
      split
      · exact ⟨SeqLock.countedRaise (by decide) (by decide) valid.counted,fun _ => SeqLock.raiseOdd,by simp,
          fun r a left here => (valid.sound r a left here).imp SeqLock.soundRaise id⟩
      · rename_i other
        have even := valid.even free.1 (by simpa using mt free.2 other)
        exact ⟨SeqLock.countedBump valid.counted,fun _ => SeqLock.bumpOdd.mpr even,by simp,
          fun r a left here => (valid.sound r a left here).imp SeqLock.soundBump id⟩
  | store =>
    simp only [StatSlot.step]
    split
    · rename_i u w v rest under
      have odd := valid.odd (by rw [under]; rfl)
      exact ⟨valid.counted,fun _ => odd,by simp,
        fun r a left here => (valid.sound r a left here).imp (SeqLock.soundPut odd) id⟩
    · exact valid
  | finish =>
    simp only [StatSlot.step]
    split
    · rename_i u under
      have odd := valid.odd (by rw [under]; rfl)
      exact ⟨SeqLock.countedBump valid.counted,by simp,fun _ _ => by simp only [SeqLock.bump]; omega,
        fun r a left here => (valid.sound r a left here).imp SeqLock.soundBump id⟩
    · exact valid
  | crash =>
    simp only [StatSlot.step]
    split
    · exact ⟨valid.counted,by simp,by simp,valid.sound⟩
    · exact valid
  | read r =>
    refine ⟨valid.counted,valid.odd,valid.even,fun q a left here => ?_⟩
    simp only [StatSlot.step,Function.update_apply] at here ⊢
    split at here
    · exact readerSound valid.counted (valid.sound r) here
    · exact valid.sound q a left here

theorem statRun (events : List StatEvent) : ((statMachine order).after statInit events).Valid order :=
  (statMachine order).invariant statValid (statInitValid order) events

def readBack (got : List (StatWord × UInt32)) (field : Metric) : UInt64 :=
  wholeWord (fun w => ((got.find? fun p => p.1 == w).map Prod.snd).getD 0) field

theorem acceptedStep {s : StatSlot} {e : StatEvent} {r : Nat} {got : List (StatWord × UInt32)} {since turns : Nat}
    (accepted : .accepted r got since turns ∈ (s.step order e).2) : ∃ a, (s.readers r).attempt = some (a,[]) ∧
      a.seen = s.lock.sequence ∧ a.got = got ∧ a.since = since ∧ s.lock.turns = turns := by
  cases e with
  | start u highFirst =>
    simp only [StatSlot.step] at accepted
    split at accepted <;> simp at accepted
  | store =>
    simp only [StatSlot.step] at accepted
    split at accepted <;> simp at accepted
  | finish =>
    simp only [StatSlot.step] at accepted
    split at accepted <;> simp at accepted
  | crash =>
    simp only [StatSlot.step] at accepted
    split at accepted <;> simp at accepted
  | read q =>
    simp only [StatSlot.step,StatReader.step] at accepted
    split at accepted
    · simp at accepted
    · split at accepted
      · split at accepted
        · simp at accepted
        · split at accepted <;> simp at accepted
      · simp at accepted
      · rename_i a under
        split at accepted
        · rename_i again
          simp only [List.mem_singleton,StatOutput.accepted.injEq] at accepted
          obtain ⟨rfl,rfl,rfl,rfl⟩ := accepted
          exact ⟨a,under,again,rfl,rfl,rfl⟩
        · simp at accepted

theorem acceptedNow {s : StatSlot} (valid : s.Valid order) (complete : ∀ w, w ∈ order) {e : StatEvent} {r : Nat}
    {got : List (StatWord × UInt32)} {since turns : Nat}
    (accepted : .accepted r got since turns ∈ (s.step order e).2) (near : turns < since + sequenceRange) :
    s.update = none ∧ ∀ field, readBack got field = wholeWord s.lock.cells field := by
  obtain ⟨a,under,again,rfl,rfl,rfl⟩ := acceptedStep accepted
  obtain ⟨sound,listed⟩ := valid.sound r a [] under
  obtain ⟨_,even,same⟩ := SeqLock.soundAccepted valid.counted sound again near
  constructor
  · cases under' : s.update with
    | none => rfl
    | some p => exact absurd (valid.odd (by rw [under']; rfl)) (by omega)
  · have held : ∀ w, ((a.got.find? fun p => p.1 == w).map Prod.snd).getD 0 = s.lock.cells w := by
      intro w
      rw [List.append_nil] at listed
      obtain ⟨p,member,rfl⟩ := List.mem_map.mp (listed ▸ complete w)
      cases found : a.got.find? fun q => q.1 == p.1 with
      | none => simpa using List.find?_eq_none.mp found p member
      | some q =>
        have name : q.1 = p.1 := by simpa using List.find?_some found
        rw [← name,Option.map_some,Option.getD_some]
        exact same q (List.mem_of_find?_eq_some found)
    intro field
    simp only [readBack,held]

def finishedUpdates (past : List StatOutput) : List StatUpdate :=
  past.filterMap fun
    | .finished u => some u
    | _ => none

def applied (updates : List StatUpdate) : Metric → UInt64 :=
  updates.foldl (fun counters u => u.apply counters) fun _ => 0

def settled (words : StatWord → UInt32) (pending : List (StatWord × UInt32)) : StatWord → UInt32 :=
  pending.foldl (fun words p => Function.update words p.1 p.2) words

theorem settledStores (counters : Metric → UInt64) (u : StatUpdate) (highFirst : Bool) :
    settled (wordsOf counters) (u.stores (counters u.field) highFirst) = wordsOf (u.apply counters) := by
  unfold StatUpdate.stores
  split
  · rename_i skipped
    obtain ⟨rfl,zero⟩ := skipped
    have same : (StatUpdate.wait false).apply counters = counters := by
      funext field
      simp only [StatUpdate.apply,StatUpdate.field,StatUpdate.next] at zero ⊢
      simp [zero,Function.update_apply]
      rintro rfl
      exact zero.symm
    rw [same]
    rfl
  · funext w
    obtain ⟨field,high⟩ := w
    split <;> cases high <;> by_cases mine : field = u.field <;>
      simp [settled,wordsOf,StatUpdate.apply,mine]

def StatsSettled (past : List StatOutput) (s : StatSlot) : Prop :=
  s.crashed = false ∧ match s.update with
    | none => s.lock.cells = wordsOf (applied (finishedUpdates past))
    | some (u,pending) => settled s.lock.cells pending = wordsOf (u.apply (applied (finishedUpdates past)))

theorem appliedFinished {past : List StatOutput} (u : StatUpdate) :
    applied (finishedUpdates (past ++ [.finished u])) = u.apply (applied (finishedUpdates past)) := by
  simp [applied,finishedUpdates]

theorem unfinished {past out : List StatOutput} (quiet : ∀ u, .finished u ∉ out) :
    finishedUpdates (past ++ out) = finishedUpdates past := by
  have none' : finishedUpdates out = [] := by
    refine List.filterMap_eq_nil_iff.mpr fun o member => ?_
    cases o with
    | finished u => exact absurd member (quiet u)
    | accepted => rfl
    | gaveUp => rfl
  simp only [finishedUpdates,List.filterMap_append] at none' ⊢
  rw [none',List.append_nil]

theorem readerQuiet (u : StatUpdate) (r : Nat) (lock : SeqLock StatWord UInt32) (reader : StatReader) :
    .finished u ∉ (reader.step order r lock).2 := by
  unfold StatReader.step
  split
  · simp
  · split
    · split
      · simp
      · split <;> simp
    · simp
    · split <;> simp

theorem stepSettled {past : List StatOutput} {s : StatSlot} {e : StatEvent} (alive : e ≠ .crash)
    (settles : StatsSettled past s)   : StatsSettled (past ++ (s.step order e).2) (s.step order e).1 := by
  obtain ⟨living,words⟩ := settles
  cases e with
  | start u highFirst =>
    simp only [StatSlot.step]
    split
    · exact ⟨living,by simpa using words⟩
    · rename_i free
      have idle : s.update = none := by
        cases under : s.update with
        | none => rfl
        | some p => simp [under] at free
      rw [idle] at words
      simp only at words
      refine ⟨rfl,?_⟩
      have same := settledStores (applied (finishedUpdates past)) u highFirst
      simp only [words,wholeWords,List.append_nil]
      split <;> simpa only [SeqLock.raise,SeqLock.bump,words] using same
  | store =>
    simp only [StatSlot.step]
    split
    · rename_i u w v rest under
      rw [under] at words
      exact ⟨living,by simpa [SeqLock.put,settled] using words⟩
    · exact ⟨living,by simpa using words⟩
  | finish =>
    simp only [StatSlot.step]
    split
    · rename_i u under
      rw [under] at words
      refine ⟨living,?_⟩
      simp only [appliedFinished]
      exact words
    · exact ⟨living,by simpa using words⟩
  | crash => exact absurd rfl alive
  | read r =>
    refine ⟨living,?_⟩
    simp only [StatSlot.step]
    rw [unfinished (fun u => readerQuiet u r s.lock (s.readers r))]
    exact words

theorem runSettled {events : List StatEvent} (alive : .crash ∉ events) :
    StatsSettled ((statMachine order).outputs statInit events) ((statMachine order).after statInit events) := by
  have start : StatsSettled [] statInit := by
    refine ⟨rfl,?_⟩
    funext w
    simp [statInit,wordsOf,applied,finishedUpdates]
  exact (statMachine order).tracksWhile (A := fun e => e ≠ .crash) start
    (fun past s e here settles => stepSettled here settles)
    fun e member same => alive (same ▸ member)

section queue
variable (slot : Slot) (a : Nat)

def StatUpdate.run (q : Queue) : StatUpdate → Queue
  | .add field value => q.statAdd (some slot) a field value
  | .wait up => q.statWait (some slot) (some a) up
  | .restart => q.modifyPath a fun path => {path with
      stats := Function.update path.stats slot (Function.update (path.stats slot) .waiting 0)}

theorem runRow (u : StatUpdate) (q : Queue) :
    ((u.run slot a q).path a).stats slot = u.apply ((q.path a).stats slot) := by
  cases u <;> simp only [StatUpdate.run,Queue.statAdd,Queue.statWait,Queue.modifyPath,Function.update_self] <;> rfl

theorem rowsApplied {q : Queue} (zero : ∀ field, (q.path a).stats slot field = 0) (updates : List StatUpdate) :
    ((updates.foldl (fun q u => u.run slot a q) q).path a).stats slot = applied updates := by
  have rows : ∀ (updates : List StatUpdate) (q : Queue), ((updates.foldl (fun q u => u.run slot a q) q).path a).stats slot =
      updates.foldl (fun counters u => u.apply counters) ((q.path a).stats slot) := by
    intro updates
    induction updates with
    | nil => exact fun _ => rfl
    | cons u rest ih =>
      intro q
      rw [List.foldl_cons,List.foldl_cons,ih,runRow]
  rw [rows,applied]
  congr 1
  exact funext zero

end queue

/- Whatever a reader accepts is whole: the counters as they all are at that instant, between
two updates. As long as no process dies in the middle of one, they are what the updates
finished so far make of them where each is one store, as a 64-bit build has them. -/
theorem statReadsAreWhole (order : List StatWord) (complete : ∀ w, w ∈ order) (events : List StatEvent) (e : StatEvent)
    {r : Nat} {got : List (StatWord × UInt32)} {since turns : Nat}
    (accepted : .accepted r got since turns ∈
      ((statMachine order).step ((statMachine order).after statInit events) e).2)
    (near : turns < since + sequenceRange) :
    (((statMachine order).after statInit events).update = none ∧ ∀ field, readBack got field =
      wholeWord ((statMachine order).after statInit events).lock.cells field) ∧
    (.crash ∉ events → ∀ slot a (q : Queue), (∀ field, (q.path a).stats slot field = 0) → ∀ field,
      readBack got field = (((finishedUpdates ((statMachine order).outputs statInit events)).foldl
        (fun q u => u.run slot a q) q).path a).stats slot field) := by
  obtain ⟨idle,same⟩ := acceptedNow (statRun events) complete accepted near
  refine ⟨⟨idle,same⟩,fun alive slot a q zero field => ?_⟩
  have words := (@runSettled order _ alive).2
  rw [idle] at words
  simp only at words
  rw [same,words,wholeWords,rowsApplied slot a zero]

def allWords : List StatWord :=
  ([.enqueued,.enqueuedFull,.started,.startedFull,.finished,.deduplicated,.waiting,.overflow,.deleted,.deleteErrors,
    .deletedBytes,.hit,.miss,.invalidated,.scanErrors,.retried,.exhausted] : List Metric).flatMap
      fun field => [(field,false),(field,true)]

def metRead : List StatEvent :=
  [.start (.add .hit 0x100000001) false,.store,.read 0,.store,.finish] ++ List.replicate 35 (.read 0)

def metWords : List (StatWord × UInt32) := allWords.map fun w => (w,if w.1 = .hit then 1 else 0)

theorem statReadsAreWholeMet : readBack metWords .hit =
    (((finishedUpdates ((statMachine allWords).outputs statInit metRead)).foldl
      (fun q u => u.run 0 0 q) (queueInit 1 [])).path 0).stats 0 .hit :=
  (@statReadsAreWhole allWords (fun w => by obtain ⟨field,high⟩ := w; cases field <;> cases high <;> decide)
    metRead (.read 0) 0 metWords 2 2 (by decide +kernel) (by decide)).2
    (by decide) 0 0 (queueInit 1 []) (fun _ => rfl) .hit

end runs
end CachePurge
