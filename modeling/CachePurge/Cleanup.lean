import CachePurge.QueueOperations
import CachePurge.SweepErrors

/-! A worker with the pass of its task: ngx_http_cache_purge_process_queue over a live
cache, in a pool thread or in slices. The queue that a section finds is the
environment's, so that whatever other workers do between two sections is covered. -/
namespace CachePurge
open General

/- begun is cursor.started, as the thread or the slice of the task leaves it. -/
structure Cleanup where
  sweep : Sweep
  work : Work
  begun : Bool

inductive CleanupEvent where
  | other (e : SweepEvent)
  | take (q : Queue) (pid : Pid) (slot : Slot) (leaving : Bool) (now : UInt64) (locked poolFound : Bool)
  | post (posted : Bool)
  | notify
  | walk (tree : Tree)
  | turn
  | pause
  | complete
  | finish (q : Queue) (slot : Slot) (final : Bool) (now : UInt64) (locked : Bool)

def SweepEvent.around : SweepEvent → Bool
  | .key _ | .store _ _ | .remove _ => true
  | _ => false

def Pass.halted (p : Pass) : Bool :=
  match p.stage with
  | .ended _ => true
  | _ => false

def Pass.closeErrors (p : Pass) : UInt64 := ((walkAbort p.cursor).scanErrors - p.cursor.scanErrors).toUInt64

namespace Cleanup

def walking (s : Cleanup) : Bool :=
  s.work.item.isSome && !s.work.complete &&
    if s.work.active then !s.work.finished else !s.work.pool || s.work.started

def halted (s : Cleanup) : Bool := s.sweep.pass.any Pass.halted

def counters (s : Cleanup) : Counters := (s.sweep.pass.map Pass.counters).getD ⟨0,0,0,0⟩

def closing (final : Bool) (s : Cleanup) : Work :=
  if final then s.work.closing (if s.begun then (s.sweep.pass.map Pass.closeErrors).getD 0 else 0) else s.work

def mayFinish (final : Bool) (s : Cleanup) : Bool :=
  if final then !s.work.active || s.work.finished else s.work.complete && !s.work.active

section machine
variable (native : Native) (names : Nat → Name) (keyOf : Bytes → Bytes) (namespaces : List Nat) (platform : Platform)

def step (s : Cleanup) : CleanupEvent → Cleanup
  | .other e => if e.around then {s with sweep := (s.sweep.step native names keyOf e).1} else s
  | .take q pid slot leaving now locked poolFound =>
    if s.work.item.isSome then s
    else {s with
      work := (takeTask names namespaces pid slot leaving now locked poolFound q s.work).2.2
      begun := false}
  | .post posted =>
    if s.work.item.isSome && s.work.pool && !s.work.started && !s.work.active then
      {s with work := (postTask posted s.work).2}
    else s
  | .notify => if s.work.active && s.work.finished then {s with work := {s.work with active := false}} else s
  | .walk tree =>
    if s.walking && !s.begun then
      {s with
        sweep := (s.sweep.step native names keyOf
          (.start ⟨platform,s.work.root,s.work.protection⟩ s.work.target tree)).1
        begun := true}
    else s
  | .turn => if s.walking && s.begun then {s with sweep := (s.sweep.step native names keyOf .advance).1} else s
  | .pause =>
    if s.walking && s.begun && !s.work.active && !s.halted then {s with work := sliceTask true s.counters s.work}
    else s
  | .complete =>
    if s.walking && s.begun && s.halted then
      {s with work := if s.work.active then threadRun s.counters s.work else sliceTask false s.counters s.work}
    else s
  | .finish q slot final now locked =>
    let outcome := finishTask slot final now locked q (s.closing final)
    if s.mayFinish final && outcome.2.2.item.isNone then {s with work := outcome.2.2} else s

end machine
end Cleanup

def Item.admitted (item : Item) : Prop :=
  item.key.head? = some 71 ∨
    item.key.tail.length ≤ keyMaxLen ∧ (item.key.tail = [] ∨ item.key.tail.getLast? = some star)

section sections
variable {names : Nat → Name} {namespaces : List Nat} {poolFound : Bool} {t : TaskId} {item : Item} {root : Bytes}
  {w : Work}

/- A selector that was let in is short enough for ngx_http_cache_purge_delete_file. -/
theorem admittedShort (admitted : item.admitted) :
    (w.begin names namespaces poolFound t item root).target.key.length < keyMaxLen := by
  by_cases named : item.key.head? = some 71
  · have empty : (w.begin names namespaces poolFound t item root).target.key = [] := by
      simp only [Work.begin,named,beq_self_eq_true,if_true,Work.target]
      split <;> rfl
    rw [empty]
    decide
  · obtain ⟨long,ends⟩ := admitted.resolve_left named
    have text : (w.begin names namespaces poolFound t item root).target.key = item.selector := by
      simp [Work.begin,Work.target,named,Item.selector]
    rw [text,Item.selector]
    rcases ends with empty | starred
    · rw [empty]
      decide
    · rw [if_pos (beq_iff_eq.mpr starred),List.length_dropLast]
      unfold keyMaxLen at long ⊢
      omega

theorem itemAdmitted {p : Purge} {a : Nat} (fits : p.tooLong = false)
    (queued : p.ns = none → p.purgeAll = true ∨ p.key.getLast? = some star) : (p.item names a).admitted := by
  cases named : p.ns with
  | some n => exact .inl (by simp [Purge.item,Purge.indexKey,named])
  | none =>
    refine .inr ?_
    simp only [Purge.item,Purge.indexKey,named,List.tail_cons]
    simp only [Purge.tooLong,named,Option.isNone_none,Bool.true_and,Option.isSome_none,Bool.false_and,Bool.or_false,
      decide_eq_false_iff_not,not_lt] at fits
    rcases queued named with all | starred
    · simp [all]
    · refine ⟨(List.length_take_le _ _).trans fits,?_⟩
      cases p.purgeAll with
      | true => exact .inl (by simp)
      | false => exact .inr (by simpa using starred)

variable {slot : Slot} {now : UInt64} {q : Queue}

end sections
end CachePurge
